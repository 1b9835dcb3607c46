import ContractBuild.Proofs.CommentLine

/-!
# Searching a text stretch by stretch

What a search makes of a stretch depends on the character before it and on the text behind it, so
both are part of every statement here.

- **Positions** (`Throughout`): something holds at every position of a stretch, with what stands
  before the position and all that follows it. A pattern that recognises nothing there passes over
  the stretch (`Pattern.pieces_of_throughout`).
- **Words** (`throughout_absent`): a word that does not stand in a stretch starts nowhere in it, if
  the stretch ends before a character that is not part of the word.
- **Code** (`IsCode`): stretches without comments, whatever follows them.
- **Pieces in code** (`codePieces`): the search of the rest of a text, of which only hits outside
  comments count. It goes on behind a stretch that is passed over (`codePieces_pass`) and behind a
  hit in code (`codePieces_hit`).
-/

namespace ContractBuild

open Text

namespace Text

/-! ## Positions -/

/-- `Throughout P before front rest`: `P` holds at every position of `front`, of the character
before the position and of the text from there on. -/
def Throughout (P : Option Char → List Char → Prop) : Option Char → List Char → List Char → Prop
  | _, [], _ => True
  | before, c :: front, rest => P before (c :: (front ++ rest)) ∧ Throughout P (some c) front rest

section

variable {P Q : Option Char → List Char → Prop} {before : Option Char}
  {front front' rest : List Char}

theorem throughout_append : Throughout P before (front ++ front') rest ↔
    Throughout P before front (front' ++ rest) ∧
      Throughout P (front.getLast?.or before) front' rest := by
  induction front generalizing before with
  | nil => simp [Throughout]
  | cons c front ih =>
    rw [List.cons_append, Throughout, Throughout, ih, getLast?_cons_or, List.append_assoc,
      and_assoc]

/-- What holds throughout a stretch makes something else hold throughout it before another text. -/
theorem Throughout.imp (h : Throughout P before front rest) {rest' : List Char}
    (hPQ : ∀ b tail, P b (tail ++ rest) → Q b (tail ++ rest')) :
    Throughout Q before front rest' := by
  induction front generalizing before with
  | nil => trivial
  | cons c front ih => exact ⟨hPQ _ (c :: front) h.1, ih h.2⟩

theorem Throughout.mono (h : Throughout P before front rest) (hPQ : ∀ b cs, P b cs → Q b cs) :
    Throughout Q before front rest :=
  h.imp fun b tail => hPQ b (tail ++ rest)

theorem throughout_of_suffix {R : List Char → Prop}
    (h : ∀ tail, tail <:+ front → tail ≠ [] → R (tail ++ rest)) :
    Throughout (fun _ cs => R cs) before front rest := by
  induction front generalizing before with
  | nil => trivial
  | cons c front ih =>
    refine ⟨h _ List.suffix_rfl (List.cons_ne_nil c front), ih fun tail htail => ?_⟩
    exact h tail (htail.trans (List.suffix_cons c front))

end

/-- A pattern that recognises nothing in a stretch passes over it. -/
theorem Pattern.pieces_of_throughout {α : Type} {p : Pattern α} {before : Option Char}
    {front rest : List Char} (h : Throughout (fun b cs => p b cs = none) before front rest) :
    p.pieces before (front ++ rest) =
      front.map .gap ++ p.pieces (front.getLast?.or before) rest := by
  induction front generalizing before with
  | nil => rfl
  | cons c front ih =>
    rw [List.cons_append, pieces_of_gap h.1, ih h.2, List.map_cons, List.cons_append,
      getLast?_cons_or]

/-- As `Pattern.pieces_of_throughout`, at the end of a text. -/
theorem Pattern.pieces_of_throughout_nil {α : Type} {p : Pattern α} {before : Option Char}
    {front : List Char} (h : Throughout (fun b cs => p b cs = none) before front []) :
    p.pieces before front = front.map .gap := by
  have hpieces := pieces_of_throughout h
  rwa [List.append_nil, pieces, List.append_nil] at hpieces

/-- What is recognised stands behind a stretch that is passed over. -/
theorem Throughout.length_le {α : Type} {p : Pattern α} {before : Option Char}
    {front rest front' rest' : List Char}
    (h : Throughout (fun b cs => p b cs = none) before front rest)
    (heq : front ++ rest = front' ++ rest') (hsome : p (front'.getLast?.or before) rest' ≠ none) :
    front.length ≤ front'.length := by
  induction front generalizing before front' with
  | nil => exact Nat.zero_le _
  | cons c front ih =>
    cases front' with
    | nil =>
      obtain rfl : c :: (front ++ rest) = rest' := heq
      exact absurd h.1 hsome
    | cons d front' =>
      obtain ⟨rfl, htail⟩ := List.cons.inj heq
      rw [getLast?_cons_or] at hsome
      exact Nat.succ_le_succ (ih h.2 htail hsome)

/-- A search finds nothing, or there is a first hit: the pattern recognises nothing before it. -/
theorem Pattern.Takes.exists_first {α : Type} {p : Pattern α}
    {P : Option Char → α → List Char → List Char → Prop} (hp : p.Takes P) (before : Option Char)
    (cs : List Char) :
    p.pieces before cs = cs.map .gap ∨ ∃ v front t rest, cs = front ++ (t ++ rest) ∧ t ≠ [] ∧
      P (front.getLast?.or before) v t rest ∧
      Throughout (fun b cs => p b cs = none) before front (t ++ rest) ∧
      p.pieces before cs = front.map .gap ++ .hit v t :: p.pieces t.getLast? rest := by
  refine hp.induction (motive := fun before cs pieces => pieces = cs.map .gap ∨
    ∃ v front t rest, cs = front ++ (t ++ rest) ∧ t ≠ [] ∧ P (front.getLast?.or before) v t rest ∧
      Throughout (fun b cs => p b cs = none) before front (t ++ rest) ∧
      pieces = front.map .gap ++ .hit v t :: p.pieces t.getLast? rest) ?_ ?_ ?_ before cs
  · exact fun _ => .inl rfl
  · rintro before c cs hnone (hall | ⟨v, front, t, rest, rfl, ht, hP, hfront, hpieces⟩)
    · exact .inl (by rw [hall, List.map_cons])
    · refine .inr ⟨v, c :: front, t, rest, rfl, ht, ?_, ⟨hnone, hfront⟩, by rw [hpieces]; rfl⟩
      rwa [getLast?_cons_or]
  · exact fun before v t rest ht hP _ => .inr ⟨v, [], t, rest, rfl, ht, hP, trivial, rfl⟩

/-! ## Words -/

/-- A word at the front of a text that a character cuts stands before the cut, or has the character
in it. -/
theorem front_or_mem {w front rest : List Char} {x : Char} (h : w <+: front ++ x :: rest) :
    w <+: front ∨ x ∈ w := by
  rcases List.prefix_or_prefix_of_prefix h (List.prefix_append front _) with hw | ⟨more, rfl⟩
  · exact .inl hw
  · rw [List.prefix_append_right_inj] at h
    cases more with
    | nil => exact .inl (by simp)
    | cons y more =>
      obtain ⟨rfl, -⟩ := List.cons_prefix_cons.mp h
      exact .inr (by simp)

section

variable {w front rest : List Char} {x : Char} {before : Option Char}

/-- A word that does not stand in a stretch starts nowhere in it, if the stretch ends before a
character that is not in the word. -/
theorem throughout_absent (hw : ¬ w <:+: front) (hx : x ∉ w) :
    Throughout (fun _ cs => ¬ w <+: cs) before front (x :: rest) := by
  refine throughout_of_suffix fun tail htail _ h => ?_
  rcases front_or_mem h with h | h
  · exact hw (h.isInfix.trans htail.isInfix)
  · exact hx h

/-- As `throughout_absent`, with the character at the end of the stretch. -/
theorem throughout_absent_of_getLast (hw : ¬ w <:+: front) (hlast : front.getLast? = some x)
    (hx : x ∉ w) : Throughout (fun _ cs => ¬ w <+: cs) before front rest := by
  obtain ⟨front, rfl⟩ := List.getLast?_eq_some_iff.mp hlast
  refine throughout_append.mpr ⟨throughout_absent (fun h => hw ?_) hx, ⟨fun h => ?_, trivial⟩⟩
  · exact h.trans (List.prefix_append front [x]).isInfix
  · cases w with
    | nil => exact hw (List.nil_infix)
    | cons y w =>
      obtain ⟨rfl, -⟩ := List.cons_prefix_cons.mp h
      exact hx (by simp)

/-- As `throughout_absent`, at the end of a text. -/
theorem throughout_absent_nil (hw : ¬ w <:+: front) :
    Throughout (fun _ cs => ¬ w <+: cs) before front [] := by
  refine throughout_of_suffix fun tail htail _ h => ?_
  rw [List.append_nil] at h
  exact hw (h.isInfix.trans htail.isInfix)

end

/-- A class is spanned up to a character outside it. -/
theorem spanOf_cut {p : Char → Bool} {front : List Char} {x : Char}
    (hfront : ∀ c ∈ front, p c = true) (hx : p x = false) (rest : List Char) :
    spanOf p (front ++ x :: rest) = (front, x :: rest) := by
  simp [spanOf, List.takeWhile_append_of_pos hfront, List.dropWhile_append_of_pos hfront, hx]

theorem all_mono {p q : Char → Bool} {cs : List Char} (h : cs.all p = true)
    (hpq : ∀ c, p c = true → q c = true) : cs.all q = true :=
  List.all_eq_true.mpr fun c hc => hpq c (List.all_eq_true.mp h c hc)

/-- Stretches in a class, with characters of the class between them. -/
theorem all_intercalate {p : Char → Bool} {sep : List Char} {ls : List (List Char)}
    (hsep : sep.all p = true) (h : ∀ l ∈ ls, l.all p = true) :
    (sep.intercalate ls).all p = true := by
  induction ls with
  | nil => rfl
  | cons l ls ih =>
    obtain ⟨hl, hls⟩ := List.forall_mem_cons.mp h
    cases ls with
    | nil => rwa [List.intercalate_singleton]
    | cons l' ls =>
      rw [List.intercalate_cons_cons, List.all_append, List.all_append, hl, hsep, ih hls]
      rfl

end Text

namespace Solidity

variable {α : Type}

/-! ## Code -/

/-- A stretch without comments, whatever follows it. -/
def IsCode (front : List Char) : Prop :=
  ∀ rest, commentMask (front ++ rest) = front.map (fun _ => false) ++ commentMask rest

theorem IsCode.append {front front' : List Char} (h : IsCode front) (h' : IsCode front') :
    IsCode (front ++ front') := by
  intro rest
  rw [List.append_assoc, h, h', List.map_append, List.append_assoc]

theorem pieces_commentOrLiteral (before : Option Char) (cs : List Char) :
    commentOrLiteral.pieces before cs = commentOrLiteral.split cs := by
  have hbefore : ∀ cs, commentOrLiteral before cs = commentOrLiteral none cs := fun _ => rfl
  exact Pattern.pieces_congr_before hbefore cs

theorem commentMask_of_gap {c : Char} {cs : List Char}
    (h : commentOrLiteral none (c :: cs) = none) :
    commentMask (c :: cs) = false :: commentMask cs := by
  rw [commentMask, Pattern.split, Pattern.pieces_of_gap h, pieces_commentOrLiteral]
  rfl

theorem commentMask_of_literal {t rest : List Char} (ht : t ≠ [])
    (h : commentOrLiteral none (t ++ rest) = some (.upTo .literal (t ++ rest) rest)) :
    commentMask (t ++ rest) = t.map (fun _ => false) ++ commentMask rest := by
  rw [commentMask, Pattern.split, Pattern.pieces_of_hit h ht (Hit.size_upTo ..),
    pieces_commentOrLiteral]
  rfl

/-- A character that opens neither a comment nor a literal. -/
def isPlainChar (c : Char) : Bool := c != '"' && c != '\'' && c != '/'

theorem isCode_of_isPlainChar {front : List Char} (h : front.all isPlainChar = true) :
    IsCode front := by
  induction front with
  | nil => exact fun rest => rfl
  | cons c front ih =>
    obtain ⟨hc, hrest⟩ := Bool.and_eq_true_iff.mp h
    intro rest
    have hne {x : Char} {cs cs' : List Char} (hx : isPlainChar x = false)
        (h : c :: cs = x :: cs') : False := by
      rw [(List.cons.inj h).1, hx] at hc
      cases hc
    have hnone : commentOrLiteral none (c :: (front ++ rest)) = none := by
      unfold commentOrLiteral
      split
      · rename_i heq
        exact (hne rfl heq).elim
      · rename_i heq
        exact (hne rfl heq).elim
      · rename_i heq
        exact (hne rfl heq).elim
      · rename_i heq
        exact (hne rfl heq).elim
      · rfl
    rw [List.cons_append, commentMask_of_gap hnone, ih hrest]
    rfl

/-- A plain character that is no line break. -/
def isLineChar (c : Char) : Bool := isPlainChar c && c != '\n'

theorem isCode_of_isLineChar {front : List Char} (h : front.all isLineChar = true) :
    IsCode front ∧ '\n' ∉ front := by
  refine ⟨isCode_of_isPlainChar (all_mono h fun c hc => (Bool.and_eq_true_iff.mp hc).1), ?_⟩
  intro hmem
  exact absurd (List.all_eq_true.mp h _ hmem) (by decide)

/-- A literal without backslashes is closed by its quote. -/
theorem literalEnd_append {quote : Char} {front rest : List Char} (hq : quote ≠ '\\')
    (h : ∀ c ∈ front, c ≠ quote ∧ c ≠ '\\' ∧ c ≠ '\n') :
    literalEnd quote (front ++ quote :: rest) = some rest := by
  induction front with
  | nil => simp [literalEnd, hq]
  | cons c front ih =>
    obtain ⟨⟨hquote, hback, hline⟩, hfront⟩ := List.forall_mem_cons.mp h
    simp [literalEnd, hquote, hback, hline, ih hfront]

theorem isCode_quoted {quote : Char} {front : List Char} (hq : quote = '"' ∨ quote = '\'')
    (h : ∀ c ∈ front, c ≠ quote ∧ c ≠ '\\' ∧ c ≠ '\n') :
    IsCode (quote :: (front ++ [quote])) := by
  intro rest
  refine commentMask_of_literal (List.cons_ne_nil _ _) ?_
  have hend (hback : quote ≠ '\\') : literalEnd quote (front ++ [quote] ++ rest) = some rest := by
    rw [List.append_assoc]
    exact literalEnd_append hback h
  rcases hq with rfl | rfl
  · rw [List.cons_append, commentOrLiteral, hend (by decide)]
    rfl
  · rw [List.cons_append, commentOrLiteral, hend (by decide)]
    rfl

/-! ## Pieces in code -/

/-- The pieces of the rest of a text, of which only hits outside comments count. -/
def codePieces (p : Pattern α) (before : Option Char) (cs : List Char) : List (Piece α) :=
  unmarked (commentMask cs) (p.pieces before cs)

theorem inCode_eq (p : Pattern α) (cs : List Char) : inCode p cs = codePieces p none cs := rfl

/-- Gaps are not marked. -/
theorem unmarked_gaps (mask : List Bool) (cs : List Char) (ps : List (Piece α)) :
    unmarked mask (cs.map .gap ++ ps) = cs.map .gap ++ unmarked (mask.drop cs.length) ps := by
  induction cs generalizing mask with
  | nil => rfl
  | cons c cs ih => simp [unmarked, ih]

/-- A stretch in which nothing is recognised is passed over. -/
theorem codePieces_pass {p : Pattern α} {before : Option Char} {front rest : List Char}
    {f : Char → Bool} (hmask : commentMask (front ++ rest) = front.map f ++ commentMask rest)
    (h : Throughout (fun b cs => p b cs = none) before front rest) :
    codePieces p before (front ++ rest) =
      front.map .gap ++ codePieces p (front.getLast?.or before) rest := by
  rw [codePieces, Pattern.pieces_of_throughout h, unmarked_gaps, hmask, List.drop_left' (by simp)]
  rfl

/-- The end of a text in which nothing is recognised. -/
theorem codePieces_last {p : Pattern α} {before : Option Char} {front : List Char}
    (h : Throughout (fun b cs => p b cs = none) before front []) :
    codePieces p before front = front.map .gap := by
  have hgaps := unmarked_gaps (commentMask front) front ([] : List (Piece α))
  rw [List.append_nil, unmarked, List.append_nil] at hgaps
  rw [codePieces, Pattern.pieces_of_throughout_nil h, hgaps]

/-- A hit in code counts. -/
theorem codePieces_hit {p : Pattern α} {before : Option Char} {t rest : List Char} {v : α}
    (hcode : IsCode t) (ht : t ≠ []) (h : p before (t ++ rest) = some (.upTo v (t ++ rest) rest)) :
    codePieces p before (t ++ rest) = .hit v t :: codePieces p t.getLast? rest := by
  have hhead : (t.map (fun _ => false) ++ commentMask rest).headD false = false := by
    cases t with
    | nil => exact absurd rfl ht
    | cons => rfl
  rw [codePieces, Pattern.pieces_of_hit h ht (Hit.size_upTo ..), unmarked, hcode, hhead,
    List.drop_left' (by simp)]
  rfl

end Solidity

end ContractBuild
