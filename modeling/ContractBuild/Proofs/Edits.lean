import ContractBuild.Proofs.Places

/-!
# Edits that leave everything in its place

An edit of a text is a list of stretches, each kept or changed. An edit keeps places
(`Stretch.keepsPlaces`) if every changed stretch starts and ends at one place, and what is left on
its two sides makes no comment mark together. All that is said here about a changed stretch is read
off the text before the edit and the characters next to it.

- **Reading along** (`Alike`, `alike_of_keepsPlaces`): a reader of the new text stands where a
  reader of the old text stands, at every character that is kept.
- **Literals** (`literals_newText`): if no changed stretch touches a literal either, the literals
  stay.
-/

namespace ContractBuild.Solidity

open Text Place

/-- A stretch of a text that is edited. -/
inductive Stretch where
  | kept (c : Char)
  | changed (old new : List Char)
  deriving Repr, DecidableEq

namespace Stretch

/-- The stretch before the edit. -/
def old : Stretch → List Char
  | kept c => [c]
  | changed old _ => old

/-- The stretch after the edit. -/
def new : Stretch → List Char
  | kept c => [c]
  | changed _ new => new

/-- The text before the edit. -/
def oldText (ss : List Stretch) : List Char := ss.flatMap old

/-- The text after the edit. -/
def newText (ss : List Stretch) : List Char := ss.flatMap new

/-- A stretch that stays. -/
def keepAll (t : List Char) : List Stretch := t.map kept

/-- The pieces of a text as stretches, with what becomes of each hit. -/
def ofPieces {α : Type} (f : α → List Char → List Stretch) (pieces : List (Piece α)) :
    List Stretch :=
  pieces.flatMap fun
    | .gap c => [kept c]
    | .hit v t => f v t

/-- Whether the next character is read as if no comment mark were read by half. -/
def joinsNothing (s : Place) (rest : List Char) : Bool :=
  rest.head?.all fun c => s.next c == s.settled.next c

/-- Whether every changed stretch stands outside literals and starts and ends at one place, and none
that is removed brings a comment mark together. The first place is that of a reader of the old text,
the second that of a reader of the new one. The end of the text may be changed at will. -/
def keepsPlaces : Place → Place → List Stretch → Bool
  | _, _, [] => true
  | s, s', kept c :: rest => keepsPlaces (s.next c) (s'.next c) rest
  | s, s', changed old new :: rest =>
    !s.inLiteral && (rest.isEmpty || s.after old == s.settled) &&
      (!new.isEmpty || joinsNothing s' (newText rest)) &&
      keepsPlaces (s.after old) (s'.after new) rest

/-- Whether no changed stretch touches a literal. -/
def avoidsLiterals : Place → List Stretch → Bool
  | _, [] => true
  | s, kept c :: rest => avoidsLiterals (s.next c) rest
  | s, changed old _ :: rest => (s.literalChars old).isEmpty && avoidsLiterals (s.after old) rest

theorem oldText_cons (x : Stretch) (ss : List Stretch) :
    oldText (x :: ss) = x.old ++ oldText ss := rfl

theorem oldText_append (a b : List Stretch) : oldText (a ++ b) = oldText a ++ oldText b :=
  List.flatMap_append

theorem newText_cons (x : Stretch) (ss : List Stretch) :
    newText (x :: ss) = x.new ++ newText ss := rfl

theorem newText_append (a b : List Stretch) : newText (a ++ b) = newText a ++ newText b :=
  List.flatMap_append

@[simp] theorem oldText_keepAll (t : List Char) : oldText (keepAll t) = t := by
  induction t with
  | nil => rfl
  | cons c t ih => exact congrArg (c :: ·) ih

@[simp] theorem newText_keepAll (t : List Char) : newText (keepAll t) = t := by
  induction t with
  | nil => rfl
  | cons c t ih => exact congrArg (c :: ·) ih

section Pieces

variable {α : Type} {f : α → List Char → List Stretch} {pieces : List (Piece α)}

theorem oldText_ofPieces (hf : ∀ v t, .hit v t ∈ pieces → oldText (f v t) = t) :
    oldText (ofPieces f pieces) = pieces.flatMap Piece.text := by
  induction pieces with
  | nil => rfl
  | cons piece pieces ih =>
    have hrest := ih fun v t ht => hf v t (by simp [ht])
    cases piece with
    | gap c => exact congrArg (c :: ·) hrest
    | hit v t =>
      show oldText (f v t ++ ofPieces f pieces) = t ++ pieces.flatMap Piece.text
      rw [oldText_append, hf v t (by simp), hrest]

theorem newText_ofPieces {g : α → List Char → List Char}
    (hf : ∀ v t, .hit v t ∈ pieces → newText (f v t) = g v t) :
    newText (ofPieces f pieces) = pieces.flatMap (Piece.replaced g) := by
  induction pieces with
  | nil => rfl
  | cons piece pieces ih =>
    have hrest := ih fun v t ht => hf v t (by simp [ht])
    cases piece with
    | gap c => exact congrArg (c :: ·) hrest
    | hit v t =>
      show newText (f v t ++ ofPieces f pieces) = g v t ++ pieces.flatMap (Piece.replaced g)
      rw [newText_append, hf v t (by simp), hrest]

/-- What is changed is changed in a hit. -/
theorem exists_hit_of_mem_ofPieces {old new : List Char} (h : changed old new ∈ ofPieces f pieces) :
    ∃ v t, .hit v t ∈ pieces ∧ changed old new ∈ f v t := by
  obtain ⟨piece, hpiece, hmem⟩ := List.mem_flatMap.1 h
  cases piece with
  | gap c => simp at hmem
  | hit v t => exact ⟨v, t, hpiece, hmem⟩

end Pieces

/-- The pieces of a text without their hits. -/
abbrev withoutHits {α : Type} (pieces : List (Piece α)) : List Stretch :=
  ofPieces (fun _ t => [changed t []]) pieces

theorem oldText_withoutHits {α : Type} (pieces : List (Piece α)) :
    oldText (withoutHits pieces) = pieces.flatMap Piece.text :=
  oldText_ofPieces fun _ _ _ => List.append_nil _

theorem newText_withoutHits {α : Type} (pieces : List (Piece α)) :
    newText (withoutHits pieces) = pieces.flatMap Piece.gapText := by
  rw [newText_ofPieces (g := fun _ _ => []) fun _ _ _ => rfl]
  rfl

theorem not_mem_keepAll {old new t : List Char} : changed old new ∉ keepAll t := by
  simp [keepAll]

end Stretch

/-! ## Inert characters -/

/-- Characters that no comment or literal starts or ends with. -/
def isInert (c : Char) : Bool := !isQuote c && c != '/' && c != '*' && c != '\n'

namespace Place

variable {s : Place}

theorem next_of_isInert (hs : s.inLiteral = false) {c : Char} (hc : isInert c = true) :
    s.next c = s.settled := by
  simp only [isInert, Bool.and_eq_true, Bool.not_eq_true', bne_iff_ne] at hc
  obtain ⟨⟨⟨hquote, hslash⟩, hstar⟩, hline⟩ := hc
  cases s <;> simp_all [next, opened, settled, inLiteral]

theorem after_of_isInert (hs : s.inLiteral = false) {cs : List Char} (hne : cs ≠ [])
    (hcs : cs.all isInert = true) : s.after cs = s.settled := by
  induction cs generalizing s with
  | nil => exact absurd rfl hne
  | cons c cs ih =>
    obtain ⟨hc, hcs⟩ := Bool.and_eq_true_iff.1 hcs
    rw [after_cons, next_of_isInert hs hc]
    by_cases hnil : cs = []
    · rw [hnil, after_nil]
    · rw [ih (by rw [inLiteral_settled, hs]) hnil hcs, settled_settled]

theorem inLiteral_after_of_isInert (hs : s.inLiteral = false) {cs : List Char}
    (hcs : cs.all isInert = true) : (s.after cs).inLiteral = false := by
  by_cases hnil : cs = []
  · rw [hnil, after_nil, hs]
  · rw [after_of_isInert hs hnil hcs, inLiteral_settled, hs]

theorem literalChars_of_isInert (hs : s.inLiteral = false) {cs : List Char}
    (hcs : cs.all isInert = true) : s.literalChars cs = [] := by
  induction cs generalizing s with
  | nil => rfl
  | cons c cs ih =>
    obtain ⟨hc, hcs⟩ := Bool.and_eq_true_iff.1 hcs
    have hnext : (s.next c).inLiteral = false := by
      rw [next_of_isInert hs hc, inLiteral_settled, hs]
    rw [literalChars, ih hnext hcs]
    simp [literalChar, hs, hnext]

theorem unbroken_of_isInert {cs : List Char} (hcs : cs.all isInert = true) :
    s.unbroken cs = true := by
  induction cs generalizing s with
  | nil => rfl
  | cons c cs ih =>
    obtain ⟨hc, hcs⟩ := Bool.and_eq_true_iff.1 hcs
    have hline : (c == '\n') = false := by
      simp only [isInert, Bool.and_eq_true, bne_iff_ne] at hc
      exact beq_false_of_ne hc.2
    rw [unbroken, hline, ih hcs, Bool.and_false]
    rfl

end Place

/-! ## Reading along -/

namespace Stretch

/-- `Alike s s' ss`: readers of the old and of the new text, in `s` and in `s'`, stand at one place
behind every character that is kept, and inside literals or comments before it both or neither. -/
inductive Alike : Place → Place → List Stretch → Prop where
  | nil {s s' : Place} : (s'.inLiteral = true → s.inLiteral = true) → Alike s s' []
  | kept {s s' : Place} {c : Char} {rest : List Stretch} :
      s.next c = s'.next c → s.inLiteral = s'.inLiteral → s.inComment = s'.inComment →
      Alike (s.next c) (s'.next c) rest → Alike s s' (kept c :: rest)
  | changed {s s' : Place} {old new : List Char} {rest : List Stretch} :
      s.inLiteral = false → s'.inLiteral = false → new.all isInert = true →
      Alike (s.after old) (s'.after new) rest → Alike s s' (changed old new :: rest)

/-- The place of the reader of the new text may be ahead by half a comment mark that the next
character does not complete. -/
def Near (s s' : Place) (ss : List Stretch) : Prop :=
  s = s' ∨ s = s'.settled ∧ joinsNothing s' (newText ss) = true

theorem Near.settled {s s' : Place} {ss : List Stretch} (h : Near s s' ss) :
    s.settled = s'.settled := by
  rcases h with rfl | ⟨rfl, -⟩
  · rfl
  · exact settled_settled s'

theorem Near.next {s s' : Place} {c : Char} {rest : List Stretch}
    (h : Near s s' (Stretch.kept c :: rest)) : s.next c = s'.next c := by
  rcases h with rfl | ⟨rfl, hjoins⟩
  · rfl
  · have heq : s'.next c = s'.settled.next c := by simpa [joinsNothing, newText, new] using hjoins
    exact heq.symm

/-- **Where an edit keeps places, readers of both texts go along with each other.** -/
theorem alike_of_keepsPlaces {ss : List Stretch}
    (hnew : ∀ old new, changed old new ∈ ss → new.all isInert = true) {s s' : Place}
    (hnear : Near s s' ss) (h : keepsPlaces s s' ss = true) : Alike s s' ss := by
  induction ss generalizing s s' with
  | nil =>
    refine .nil fun hs' => ?_
    rw [← inLiteral_settled, hnear.settled, inLiteral_settled, hs']
  | cons x rest ih =>
    have hliteral : s.inLiteral = s'.inLiteral := by
      rw [← inLiteral_settled, hnear.settled, inLiteral_settled]
    replace ih := @ih fun old new hmem => hnew old new (by simp [hmem])
    cases x with
    | kept c =>
      have hcomment : s.inComment = s'.inComment := by
        rw [← inComment_settled, hnear.settled, inComment_settled]
      exact .kept hnear.next hliteral hcomment (ih (.inl hnear.next) h)
    | changed old new =>
      have hinert := hnew old new (by simp)
      simp only [keepsPlaces, Bool.and_eq_true, Bool.or_eq_true, Bool.not_eq_true', beq_iff_eq] at h
      obtain ⟨⟨⟨hs, hplace⟩, hjoins⟩, hkeeps⟩ := h
      have hs' : s'.inLiteral = false := hliteral ▸ hs
      refine .changed hs hs' hinert ?_
      rcases hplace with hend | hplace
      · rw [List.isEmpty_iff.1 hend]
        refine .nil fun hs'' => ?_
        rw [inLiteral_after_of_isInert hs' hinert] at hs''
        cases hs''
      · refine ih ?_ hkeeps
        rw [hplace, hnear.settled]
        by_cases hnil : new = []
        · subst hnil
          exact .inr ⟨rfl, by simpa using hjoins⟩
        · exact .inl (after_of_isInert hs' hnil hinert).symm

/-! ## Literals -/

namespace Alike

variable {s s' : Place} {ss : List Stretch}

/-- The same is read inside literals. -/
theorem literalChars (h : Alike s s' ss) (hsafe : avoidsLiterals s ss = true) :
    s.literalChars (oldText ss) = s'.literalChars (newText ss) := by
  induction h with
  | nil _ => rfl
  | @kept s s' c rest hnext hliteral _ _ ih =>
    have hchar : s.literalChar c = s'.literalChar c := by
      rw [literalChar, literalChar, hliteral, hnext]
    show s.literalChar c ++ (s.next c).literalChars (oldText rest) =
      s'.literalChar c ++ (s'.next c).literalChars (newText rest)
    rw [hchar, ih hsafe]
  | @changed s s' old new rest _ hs' hinert _ ih =>
    simp only [avoidsLiterals, Bool.and_eq_true, List.isEmpty_iff] at hsafe
    obtain ⟨hold, hrest⟩ := hsafe
    show s.literalChars (old ++ oldText rest) = s'.literalChars (new ++ newText rest)
    rw [literalChars_append, literalChars_append, hold, literalChars_of_isInert hs' hinert,
      ih hrest]

/-- Literals that were closed stay closed. -/
theorem closed (h : Alike s s' ss) (hclosed : s.closed (oldText ss) = true) :
    s'.closed (newText ss) = true := by
  induction h with
  | @nil s s' hliteral =>
    simp only [oldText, newText, List.flatMap_nil, Place.closed, unbroken, after_nil, Bool.true_and,
      Bool.not_eq_true'] at hclosed ⊢
    by_contra hs'
    rw [hliteral (by simpa using hs')] at hclosed
    cases hclosed
  | @kept s s' c rest hnext hliteral _ _ ih =>
    have hcons : s.closed (c :: oldText rest) = true := hclosed
    show s'.closed (c :: newText rest) = true
    rw [closed_cons, Bool.and_eq_true] at hcons ⊢
    exact ⟨hliteral ▸ hcons.1, ih hcons.2⟩
  | @changed s s' old new rest _ _ hinert _ ih =>
    have happend : s.closed (old ++ oldText rest) = true := hclosed
    show s'.closed (new ++ newText rest) = true
    rw [closed_append, Bool.and_eq_true] at happend ⊢
    exact ⟨unbroken_of_isInert hinert, ih happend.2⟩

end Alike

/-- **An edit that keeps places and touches no literal leaves the literals as they are.** -/
theorem literals_newText {ss : List Stretch}
    (hnew : ∀ old new, changed old new ∈ ss → new.all isInert = true)
    (hquotes : quotesClosed (oldText ss) = true) (hplaces : keepsPlaces code code ss = true)
    (hsafe : avoidsLiterals code ss = true) :
    literals (newText ss) = literals (oldText ss) ∧ quotesClosed (newText ss) = true := by
  have hread := alike_of_keepsPlaces hnew (.inl rfl) hplaces
  rw [quotesClosed_eq] at hquotes ⊢
  have hclosed := hread.closed hquotes
  exact ⟨literals_eq hclosed hquotes (hread.literalChars hsafe).symm, hclosed⟩

end Stretch

end ContractBuild.Solidity
