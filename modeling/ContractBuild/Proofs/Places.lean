import ContractBuild.Proofs.Recognition
import ContractBuild.Solidity.Import

/-!
# Places in a source text

A reader that takes a source text character by character stands in code, in a comment or in a string
literal. `Place.next` says how the place changes. Other than the search for comments and literals a
place knows only what was read so far, so the two agree where no literal is left open on its line
(`quotesClosed`):

- **Literals** (`literalChars_eq`): the characters read inside literals are those of `literals`.
- **Comments** (`commentMask_eq`): the characters read inside comments are those that are marked.
-/

namespace ContractBuild.Solidity

open Text

/-- Where a reader of a source text stands. -/
inductive Place where
  | code
  /-- In code, behind a slash that may open a comment. -/
  | slash
  /-- In a line comment. -/
  | line
  /-- In a block comment. -/
  | block
  /-- In a block comment, behind a star that may close it. -/
  | star
  | literal (quote : Char)
  /-- In a literal, behind a backslash. -/
  | escape (quote : Char)
  deriving Repr, DecidableEq

namespace Place

/-- The place behind a character of code. -/
def opened (c : Char) : Place := if isQuote c then literal c else if c == '/' then slash else code

/-- The place behind one more character. -/
def next : Place → Char → Place
  | code, c => opened c
  | slash, c => if c == '/' then line else if c == '*' then block else opened c
  | line, c => if c == '\n' then code else line
  | block, c => if c == '*' then star else block
  | star, c => if c == '/' then code else if c == '*' then star else block
  | literal quote, c =>
    if c == quote then code else if c == '\\' then escape quote else literal quote
  | escape quote, _ => literal quote

/-- The place behind a stretch of text. -/
def after (s : Place) (cs : List Char) : Place := cs.foldl next s

/-- The place without a comment mark that is read by half. -/
def settled : Place → Place
  | slash => code
  | star => block
  | s => s

/-- Whether a reader stands in a literal. -/
def inLiteral : Place → Bool
  | literal _ | escape _ => true
  | _ => false

/-- Whether a reader stands in a comment. -/
def inComment : Place → Bool
  | line | block | star => true
  | _ => false

@[simp] theorem after_nil (s : Place) : s.after [] = s := rfl

@[simp] theorem after_cons (s : Place) (c : Char) (cs : List Char) :
    s.after (c :: cs) = (s.next c).after cs := rfl

theorem after_append (s : Place) (a b : List Char) : s.after (a ++ b) = (s.after a).after b :=
  List.foldl_append

@[simp] theorem settled_settled (s : Place) : s.settled.settled = s.settled := by
  cases s <;> rfl

@[simp] theorem inLiteral_settled (s : Place) : s.settled.inLiteral = s.inLiteral := by
  cases s <;> rfl

@[simp] theorem inComment_settled (s : Place) : s.settled.inComment = s.inComment := by
  cases s <;> rfl

/-! ## What is read inside literals -/

/-- The character, if it is read inside a literal, with whether it opens the literal. -/
def literalChar (s : Place) (c : Char) : List (Bool × Char) :=
  if s.inLiteral then [(false, c)] else if (s.next c).inLiteral then [(true, c)] else []

/-- The characters that are read inside literals. -/
def literalChars : Place → List Char → List (Bool × Char)
  | _, [] => []
  | s, c :: cs => s.literalChar c ++ literalChars (s.next c) cs

/-- No line ends inside a literal. -/
def unbroken : Place → List Char → Bool
  | _, [] => true
  | s, c :: cs => !(s.inLiteral && c == '\n') && unbroken (s.next c) cs

/-- Every literal is closed on its line. -/
def closed (s : Place) (cs : List Char) : Bool := s.unbroken cs && !(s.after cs).inLiteral

theorem literalChars_append (s : Place) (a b : List Char) :
    s.literalChars (a ++ b) = s.literalChars a ++ (s.after a).literalChars b := by
  induction a generalizing s with
  | nil => rfl
  | cons c a ih => simp [literalChars, ih]

theorem unbroken_append (s : Place) (a b : List Char) :
    s.unbroken (a ++ b) = (s.unbroken a && (s.after a).unbroken b) := by
  induction a generalizing s with
  | nil => rfl
  | cons c a ih => simp [unbroken, ih, Bool.and_assoc]

theorem closed_append (s : Place) (a b : List Char) :
    s.closed (a ++ b) = (s.unbroken a && (s.after a).closed b) := by
  rw [closed, closed, unbroken_append, after_append, Bool.and_assoc]

theorem closed_cons (s : Place) (c : Char) (cs : List Char) :
    s.closed (c :: cs) = (!(s.inLiteral && c == '\n') && (s.next c).closed cs) := by
  rw [closed, closed, unbroken, after_cons, Bool.and_assoc]

/-- Two places that the next character leads to the same one, both outside literals, cannot be told
apart by what is read inside literals. -/
theorem literalChars_congr {s s' : Place} (hs : s.inLiteral = s'.inLiteral) {cs : List Char}
    (h : ∀ c ∈ cs.head?, s.next c = s'.next c) : s.literalChars cs = s'.literalChars cs := by
  cases cs with
  | nil => rfl
  | cons c cs => rw [literalChars, literalChars, literalChar, literalChar, h c rfl, hs]

theorem closed_congr {s s' : Place} (hs : s.inLiteral = s'.inLiteral) {cs : List Char}
    (h : ∀ c ∈ cs.head?, s.next c = s'.next c) : s.closed cs = s'.closed cs := by
  cases cs with
  | nil => rw [closed, closed, unbroken, unbroken, after_nil, after_nil, hs]
  | cons c cs => rw [closed_cons, closed_cons, h c rfl, hs]

/-! ## What is read inside comments -/

/-- Whether a character before `rest` is read inside a comment, the marks of the comment included.
-/
def marked : Place → Char → List Char → Bool
  | code, c, rest => c == '/' && (rest.head? == some '/' || rest.head? == some '*')
  | slash, c, _ => c == '/' || c == '*'
  | line, c, _ => c != '\n'
  | block, _, _ | star, _, _ => true
  | literal _, _, _ | escape _, _, _ => false

/-- For each character, whether it is read inside a comment. -/
def mask : Place → List Char → List Bool
  | _, [] => []
  | s, c :: cs => s.marked c cs :: mask (s.next c) cs

/-- `s.Leads cs s' rest marks bits`: a reader who stands in `s` before `cs` gets to `s'` before
`rest`, and on the way reads `marks` inside literals and `bits` for comments. -/
structure Leads (s : Place) (cs : List Char) (s' : Place) (rest : List Char)
    (marks : List (Bool × Char)) (bits : List Bool) : Prop where
  literalChars : s.literalChars cs = marks ++ s'.literalChars rest
  closed : s.closed cs = s'.closed rest
  mask : s.mask cs = bits ++ s'.mask rest

namespace Leads

variable {s s₁ s₂ : Place} {cs rest rest' : List Char} {marks marks' : List (Bool × Char)}
  {bits bits' : List Bool}

theorem refl (s : Place) (cs : List Char) : s.Leads cs s cs [] [] := ⟨rfl, rfl, rfl⟩

theorem trans (h : s.Leads cs s₁ rest marks bits) (h' : s₁.Leads rest s₂ rest' marks' bits') :
    s.Leads cs s₂ rest' (marks ++ marks') (bits ++ bits') where
  literalChars := by rw [h.literalChars, h'.literalChars, List.append_assoc]
  closed := h.closed.trans h'.closed
  mask := by rw [h.mask, h'.mask, List.append_assoc]

/-- One character, unless it breaks a literal. -/
theorem step (s : Place) {c : Char} (h : (s.inLiteral && c == '\n') = false) (cs : List Char) :
    s.Leads (c :: cs) (s.next c) cs (s.literalChar c) [s.marked c cs] where
  literalChars := rfl
  closed := by rw [closed_cons, h, Bool.not_false, Bool.true_and]
  mask := rfl

/-- Where the next character is read alike from two places, so is all the rest. -/
theorem congr (hlit : s.inLiteral = s₁.inLiteral)
    (h : ∀ c r, cs = c :: r → s.next c = s₁.next c ∧ s.marked c r = s₁.marked c r) :
    s.Leads cs s₁ cs [] [] := by
  have hnext : ∀ c ∈ cs.head?, s.next c = s₁.next c := by
    intro c hc
    obtain ⟨r, rfl⟩ := List.head?_eq_some_iff.1 hc
    exact (h c r rfl).1
  refine ⟨literalChars_congr hlit hnext, closed_congr hlit hnext, ?_⟩
  cases cs with
  | nil => rfl
  | cons c cs =>
    obtain ⟨hc, hm⟩ := h c cs rfl
    simp only [Place.mask, hc, hm, List.nil_append]

end Leads

/-- A literal is read up to its closing quote. -/
theorem leads_literal {quote : Char} (hquote : isQuote quote = true) {cs rest : List Char}
    (h : literalEnd quote cs = some rest) : ∃ t, cs = t ++ rest ∧
      (literal quote).Leads cs code rest (t.map fun c => (false, c)) (t.map fun _ => false) := by
  have hslash : quote ≠ '\\' := by
    rintro rfl
    cases hquote
  fun_induction literalEnd quote cs with
  | case1 => cases h
  | case2 => cases h
  | case3 c cs hc ih =>
    obtain ⟨t, rfl, ht⟩ := ih h
    have hback := Leads.step (literal quote) (c := '\\') rfl (c :: (t ++ rest))
    have hnext : (literal quote).next '\\' = escape quote := by simp [next, hslash.symm]
    rw [hnext] at hback
    have hchar := Leads.step (escape quote) (c := c) (by simpa [inLiteral] using hc) (t ++ rest)
    exact ⟨'\\' :: c :: t, rfl, hback.trans (hchar.trans ht)⟩
  | case4 c cs _ hc =>
    cases h
    rw [beq_iff_eq] at hc
    subst hc
    have hstep := Leads.step (literal c) (c := c) ?_ rest
    · rw [show (literal c).next c = code by simp [next]] at hstep
      exact ⟨[c], rfl, hstep⟩
    · simp only [Bool.and_eq_false_iff, beq_eq_false_iff_ne]
      exact .inr fun e => by simp [e, isQuote] at hquote
  | case5 => cases h
  | case6 c cs _ hc hend ih =>
    obtain ⟨t, rfl, ht⟩ := ih h
    simp only [Bool.or_eq_true, beq_iff_eq, not_or] at hc hend
    have hstep := Leads.step (literal quote) (c := c) (by simp [hend.1]) (t ++ rest)
    rw [show (literal quote).next c = literal quote by simp [next, hc, hend.2]] at hstep
    exact ⟨c :: t, rfl, hstep.trans ht⟩

/-- A literal that is not closed on its line is found out. -/
theorem closed_literal {quote : Char} (hquote : isQuote quote = true) {cs : List Char}
    (h : literalEnd quote cs = none) : (literal quote).closed cs = false := by
  have hslash : quote ≠ '\\' := by
    rintro rfl
    cases hquote
  fun_induction literalEnd quote cs with
  | case1 => rfl
  | case2 c cs hc =>
    rw [beq_iff_eq] at hc
    simp [closed_cons, next, hslash.symm, inLiteral, hc]
  | case3 c cs hc ih => simp [closed_cons, next, hslash.symm, ih h]
  | case4 => cases h
  | case5 c cs hnot hc hend =>
    simp only [Bool.or_eq_true, beq_iff_eq] at hc hend
    rcases hend with rfl | rfl
    · simp [closed_cons, inLiteral]
    · cases cs with
      | nil => simp [next, hslash.symm, closed, unbroken, inLiteral]
      | cons d cs => exact absurd rfl (hnot d cs rfl)
  | case6 c cs _ hc hend ih =>
    simp only [Bool.or_eq_true, beq_iff_eq, not_or] at hc hend
    simp [closed_cons, next, hc, hend.2, ih h]

/-- A line comment is read up to the end of its line. -/
theorem leads_line (cs : List Char) : ∃ t, cs = t ++ (restOfLine cs).2 ∧
    line.Leads cs code (restOfLine cs).2 [] (t.map fun _ => true) := by
  induction cs with
  | nil => exact ⟨[], rfl, .congr rfl nofun⟩
  | cons c cs ih =>
    by_cases hc : c = '\n'
    · subst hc
      refine ⟨[], rfl, .congr rfl fun c r hcr => ?_⟩
      cases hcr
      exact ⟨rfl, rfl⟩
    · obtain ⟨t, hcs, ht⟩ := ih
      have hrest : (restOfLine (c :: cs)).2 = (restOfLine cs).2 := by
        simp [restOfLine, spanOf, hc]
      have hstep := Leads.step line (c := c) rfl cs
      rw [show line.next c = line by simp [next, hc],
        show line.literalChar c = [] by simp [literalChar, next, hc, inLiteral],
        show line.marked c cs = true by simp [marked, hc]] at hstep
      rw [hrest]
      refine ⟨c :: t, ?_, hstep.trans ht⟩
      rw [List.cons_append, ← hcs]

/-- A block comment is read up to its end. -/
theorem leads_block (cs : List Char) : ∃ t, cs = t ++ blockEnd cs ∧
    block.Leads cs code (blockEnd cs) [] (t.map fun _ => true) := by
  fun_induction blockEnd cs with
  | case1 => exact ⟨[], rfl, .congr rfl nofun⟩
  | case2 cs =>
    have hstar := Leads.step block (c := '*') rfl ('/' :: cs)
    exact ⟨['*', '/'], rfl, hstar.trans (.step star (c := '/') rfl cs)⟩
  | case3 c cs hnot ih =>
    obtain ⟨t, hcs, ht⟩ := ih
    have hblock : (block.next c).Leads cs block cs [] [] := by
      by_cases hc : c = '*'
      · subst hc
        refine .congr rfl fun d r hd => ?_
        have hslash : d ≠ '/' := fun e => hnot r rfl (e ▸ hd)
        exact ⟨by simp [next, hslash], rfl⟩
      · rw [show block.next c = block by simp [next, hc]]
        exact .refl block cs
    have hchar : block.literalChar c = [] := by
      by_cases hc : c = '*' <;> simp [literalChar, next, hc, inLiteral]
    have hstep := Leads.step block (c := c) rfl cs
    rw [hchar] at hstep
    exact ⟨c :: t, by rw [List.cons_append, ← hcs], hstep.trans (hblock.trans ht)⟩

end Place

/-! ## Comments and literals as they are found -/

/-- What is read inside a literal, the quotes included. -/
def literalMarks : List Char → List (Bool × Char)
  | [] => []
  | c :: t => (true, c) :: t.map fun c => (false, c)

/-- What is read inside a comment or a literal. -/
def Lexeme.marks : Lexeme → List Char → List (Bool × Char)
  | .comment, _ => []
  | .literal, t => literalMarks t

open Place

/-- A literal leads from code to code. -/
theorem leads_quoted {quote : Char} (hquote : isQuote quote = true) {cs rest : List Char}
    (h : literalEnd quote cs = some rest) : ∃ t, quote :: cs = quote :: t ++ rest ∧
      code.Leads (quote :: cs) code rest (literalMarks (quote :: t))
        ((quote :: t).map fun _ => false) := by
  obtain ⟨t, hcs, ht⟩ := leads_literal hquote h
  have hslash : quote ≠ '/' := by
    rintro rfl
    cases hquote
  have hstep := Leads.step code (c := quote) rfl cs
  rw [show code.next quote = literal quote by simp [next, opened, hquote],
    show code.literalChar quote = [(true, quote)] by
      simp [literalChar, next, opened, hquote, inLiteral],
    show code.marked quote cs = false by simp [marked, hslash]] at hstep
  exact ⟨t, by rw [hcs, List.cons_append], hstep.trans ht⟩

/-- A comment or a literal leads from code to code. -/
theorem takes_commentOrLiteral : commentOrLiteral.Takes fun _ v t rest =>
    code.Leads (t ++ rest) code rest (v.marks t) (t.map fun _ => v == .comment) := by
  intro before cs h hh
  unfold commentOrLiteral at hh
  split at hh
  · obtain ⟨rest, hrest, rfl⟩ := Option.map_eq_some_iff.1 hh
    obtain ⟨t, hcs, ht⟩ := leads_quoted rfl hrest
    rw [hcs] at ht ⊢
    exact ⟨_, rest, rfl, by simp, Hit.size_upTo .., ht⟩
  · obtain ⟨rest, hrest, rfl⟩ := Option.map_eq_some_iff.1 hh
    obtain ⟨t, hcs, ht⟩ := leads_quoted rfl hrest
    rw [hcs] at ht ⊢
    exact ⟨_, rest, rfl, by simp, Hit.size_upTo .., ht⟩
  · rename_i cs
    cases hh
    obtain ⟨t, hcs, ht⟩ := leads_line cs
    generalize (restOfLine cs).2 = rest at hcs ht ⊢
    subst hcs
    have hopen := (Leads.step code (c := '/') rfl _).trans (.step slash (c := '/') rfl (t ++ rest))
    exact ⟨'/' :: '/' :: t, rest, rfl, by simp, Hit.size_upTo _ ('/' :: '/' :: t) rest,
      hopen.trans ht⟩
  · rename_i cs
    cases hh
    obtain ⟨t, hcs, ht⟩ := leads_block cs
    generalize blockEnd cs = rest at hcs ht ⊢
    subst hcs
    have hopen := (Leads.step code (c := '/') rfl _).trans (.step slash (c := '*') rfl (t ++ rest))
    exact ⟨'/' :: '*' :: t, rest, rfl, by simp, Hit.size_upTo _ ('/' :: '*' :: t) rest,
      hopen.trans ht⟩
  · cases hh

/-- A character that starts neither leads from code to code, unless it is a quote. -/
theorem leads_gap {c : Char} {cs : List Char} (h : commentOrLiteral none (c :: cs) = none)
    (hc : isQuote c = false) : code.Leads (c :: cs) code cs [] [false] := by
  by_cases hslash : c = '/'
  · subst hslash
    have hhead : ∀ d r, cs = d :: r → d ≠ '/' ∧ d ≠ '*' := by
      rintro d r rfl
      constructor <;>
      · rintro rfl
        cases h
    have hmarked : code.marked '/' cs = false := by
      cases cs with
      | nil => rfl
      | cons d r => simp [marked, hhead d r rfl]
    have hstep := Leads.step code (c := '/') rfl cs
    rw [hmarked, show code.next '/' = slash from rfl] at hstep
    refine hstep.trans (.congr rfl fun d r hd => ?_)
    obtain ⟨hd₁, hd₂⟩ := hhead d r hd
    exact ⟨by simp [next, hd₁, hd₂], by simp [marked, beq_false_of_ne hd₁, beq_false_of_ne hd₂]⟩
  · have hstep := Leads.step code (c := c) rfl cs
    rw [show code.next c = code by simp [next, opened, hc, hslash],
      show code.literalChar c = [] by simp [literalChar, next, opened, hc, hslash, inLiteral],
      show code.marked c cs = false by simp [marked, hslash]] at hstep
    exact hstep

/-- A quote that opens no literal is left open. -/
theorem closed_of_open_quote {c : Char} {cs : List Char}
    (h : commentOrLiteral none (c :: cs) = none) (hc : isQuote c = true) :
    code.closed (c :: cs) = false := by
  have hend : literalEnd c cs = none := by
    simp only [isQuote, Bool.or_eq_true, beq_iff_eq] at hc
    rcases hc with rfl | rfl <;> exact Option.map_eq_none_iff.1 h
  rw [closed_cons, show code.next c = literal c by simp [next, opened, hc], closed_literal hc hend,
    Bool.and_false]

/-- Whether a piece is no quote that is left open. -/
def isClosedPiece : Piece Lexeme → Bool
  | .gap c => !isQuote c
  | .hit _ _ => true

/-- Every quote outside comments belongs to a literal. -/
def quotesClosed (cs : List Char) : Bool := (commentOrLiteral.split cs).all isClosedPiece

/-- What is read inside a piece of a text. -/
def pieceMarks : Piece Lexeme → List (Bool × Char)
  | .gap _ => []
  | .hit v t => v.marks t

/-- The part of a mask that belongs to a piece of a text. -/
def pieceMask : Piece Lexeme → List Bool
  | .gap _ => [false]
  | .hit v t => t.map fun _ => v == .comment

/-- **A reader meets what a search finds**, if all literals are closed on their lines; and a reader
finds out if they are. -/
theorem pieces_commentOrLiteral_read (before : Option Char) (cs : List Char) :
    (commentOrLiteral.pieces before cs).all isClosedPiece = code.closed cs ∧
      (code.closed cs = true →
        code.literalChars cs = (commentOrLiteral.pieces before cs).flatMap pieceMarks ∧
        code.mask cs = (commentOrLiteral.pieces before cs).flatMap pieceMask) := by
  refine takes_commentOrLiteral.induction (motive := fun _ cs ps =>
    ps.all isClosedPiece = code.closed cs ∧ (code.closed cs = true →
      code.literalChars cs = ps.flatMap pieceMarks ∧ code.mask cs = ps.flatMap pieceMask))
    (fun _ => ⟨rfl, fun _ => ⟨rfl, rfl⟩⟩) ?_ ?_ before cs
  · intro before c cs hgap ⟨hclosed, hread⟩
    cases hc : isQuote c with
    | true =>
      have hopen := closed_of_open_quote hgap hc
      rw [hopen]
      exact ⟨by simp [isClosedPiece, hc], nofun⟩
    | false =>
      have hleads := leads_gap hgap hc
      rw [hleads.closed, hleads.literalChars, hleads.mask]
      refine ⟨by simp [isClosedPiece, hc, hclosed], fun h => ?_⟩
      obtain ⟨hchars, hmask⟩ := hread h
      rw [hchars, hmask]
      exact ⟨rfl, rfl⟩
  · intro before v t rest _ hleads ⟨hclosed, hread⟩
    rw [hleads.closed, hleads.literalChars, hleads.mask]
    refine ⟨by simp [isClosedPiece, hclosed], fun h => ?_⟩
    obtain ⟨hchars, hmask⟩ := hread h
    rw [hchars, hmask]
    exact ⟨rfl, rfl⟩

theorem quotesClosed_eq (cs : List Char) : quotesClosed cs = code.closed cs :=
  (pieces_commentOrLiteral_read none cs).1

theorem literalChars_eq {cs : List Char} (h : code.closed cs = true) :
    code.literalChars cs = (literals cs).flatMap literalMarks := by
  rw [((pieces_commentOrLiteral_read none cs).2 h).1, literals, Pattern.split]
  induction commentOrLiteral.pieces none cs with
  | nil => rfl
  | cons piece ps ih =>
    rw [List.flatMap_cons, ih]
    cases piece with
    | gap c => rfl
    | hit v t => cases v <;> rfl

/-- Literals put together again from what was read inside them: the rest of one that is already
open, and those behind it. -/
def regroup : List (Bool × Char) → List Char × List (List Char)
  | [] => ([], [])
  | (true, c) :: rest => ([], (c :: (regroup rest).1) :: (regroup rest).2)
  | (false, c) :: rest => (c :: (regroup rest).1, (regroup rest).2)

theorem regroup_inside (t : List Char) (rest : List (Bool × Char)) :
    regroup (t.map (fun c => (false, c)) ++ rest) = (t ++ (regroup rest).1, (regroup rest).2) := by
  induction t with
  | nil => rfl
  | cons c t ih => rw [List.map_cons, List.cons_append, regroup, ih, List.cons_append]

theorem regroup_literalMarks {ls : List (List Char)} (h : ∀ t ∈ ls, t ≠ []) :
    regroup (ls.flatMap literalMarks) = ([], ls) := by
  induction ls with
  | nil => rfl
  | cons t ls ih =>
    obtain ⟨ht, hls⟩ := List.forall_mem_cons.1 h
    obtain ⟨c, t, rfl⟩ := List.exists_cons_of_ne_nil ht
    rw [List.flatMap_cons, literalMarks, List.cons_append, regroup, regroup_inside, ih hls,
      List.append_nil]

theorem ne_nil_of_mem_literals {cs t : List Char} (h : t ∈ literals cs) : t ≠ [] := by
  obtain ⟨piece, hpiece, heq⟩ := List.mem_filterMap.1 h
  split at heq
  · cases heq
    exact (takes_commentOrLiteral.of_mem_pieces hpiece).1
  · cases heq

/-- The literals of a text are known from what is read inside them. -/
theorem literals_eq {cs cs' : List Char} (h : code.closed cs = true) (h' : code.closed cs' = true)
    (hchars : code.literalChars cs = code.literalChars cs') : literals cs = literals cs' := by
  have hgroup (cs : List Char) (h : code.closed cs = true) :
      (regroup (code.literalChars cs)).2 = literals cs := by
    rw [literalChars_eq h, regroup_literalMarks fun t => ne_nil_of_mem_literals]
  rw [← hgroup cs h, hchars, hgroup cs' h']

theorem commentMask_eq {cs : List Char} (h : code.closed cs = true) :
    commentMask cs = code.mask cs := by
  rw [((pieces_commentOrLiteral_read none cs).2 h).2, commentMask, Pattern.split]
  congr 1
  funext piece
  cases piece with
  | gap c => rfl
  | hit v t => cases v <;> rfl

end ContractBuild.Solidity
