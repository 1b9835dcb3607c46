import ContractBuild.Text.Pattern
import Mathlib.Data.List.Basic
import Mathlib.Data.List.TakeWhile
import Mathlib.Data.Option.Basic

/-!
# What patterns recognise

- **Parts**: a part of a pattern takes a front of the text and leaves the rest (`literal_eq_some`,
  `exists_of_spaces`, `digits_eq_some` and so on say which fronts). It takes such a front wherever
  the text goes on with another class of characters (`spaces_append`, `digits_append`).
- **Patterns** (`Pattern.Takes`): what is known of every stretch that a pattern recognises, and of
  the text behind it.
- **Searches** (`Pattern.Takes.induction`): the pieces of a text, by induction along the search,
  with the stretches that were recognised in place of their sizes.
-/

namespace ContractBuild.Text

/-! ## Characters -/

/-- The spaces by their numbers. -/
def spaceNumbers : List Nat :=
  List.range' 9 5 ++ [0x20, 0x85, 0xa0, 0x1680] ++ List.range' 0x2000 11 ++
    [0x2028, 0x2029, 0x202f, 0x205f, 0x3000]

/-- What holds of all spaces is a matter of counting. -/
theorem of_isSpace {P : Char → Prop} {c : Char} (hc : isSpace c = true)
    (h : ∀ n ∈ spaceNumbers, P (Char.ofNat n)) : P c := by
  have hlisted : c.toNat ∈ spaceNumbers := by
    simp only [isSpace, Bool.or_eq_true, Bool.and_eq_true, decide_eq_true_eq, beq_iff_eq] at hc
    simp only [spaceNumbers, List.mem_append, List.mem_range'_1, List.mem_cons, List.not_mem_nil,
      or_false]
    omega
  have hc := h _ hlisted
  rwa [Char.ofNat_toNat] at hc

/-- No space is part of a word. -/
theorem isWord_of_isSpace {c : Char} (h : isSpace c = true) : isWord c = false :=
  of_isSpace (P := fun c => isWord c = false) h (by decide +kernel)

/-- No space is a digit. -/
theorem isDigit_of_isSpace {c : Char} (h : isSpace c = true) : isDigit c = false :=
  of_isSpace (P := fun c => isDigit c = false) h (by decide +kernel)

/-! ## Parts -/

theorem literal_eq_some {s : String} {cs rest : List Char} :
    literal s cs = some rest ↔ cs = s.toList ++ rest := by
  rw [literal, List.isPrefixOf?_eq_some_iff_append_eq, eq_comm]

theorem literal_append (s : String) (rest : List Char) : literal s (s.toList ++ rest) = some rest :=
  literal_eq_some.mpr rfl

/-- A text is a front in a class, and what is left without it. -/
theorem exists_eq_append_dropWhile (p : Char → Bool) (cs : List Char) :
    ∃ front, cs = front ++ cs.dropWhile p ∧ ∀ c ∈ front, p c = true :=
  ⟨cs.takeWhile p, List.takeWhile_append_dropWhile.symm, fun _ => List.mem_takeWhile_imp⟩

/-- What is left does not begin with the class. -/
theorem head?_dropWhile_ne {p : Char → Bool} {cs : List Char} {c : Char}
    (h : (cs.dropWhile p).head? = some c) : p c = false := by
  have := List.head?_dropWhile_not p cs
  rwa [h] at this

/-- A class is left behind where the text goes on outside it. -/
theorem dropWhile_append_run {p : Char → Bool} {run rest : List Char}
    (hrun : ∀ c ∈ run, p c = true) (hrest : rest.head?.any p = false) :
    (run ++ rest).dropWhile p = rest := by
  rw [List.dropWhile_append_of_pos hrun]
  cases rest with
  | nil => rfl
  | cons c rest => exact List.dropWhile_cons_of_neg (by simpa using hrest)

theorem literal_suffix {s : String} {cs rest : List Char} (h : literal s cs = some rest) :
    rest <:+ cs := ⟨s.toList, (literal_eq_some.mp h).symm⟩

theorem exists_of_spaces {cs rest : List Char} (h : spaces cs = some rest) :
    ∃ run, (run ≠ [] ∧ ∀ c ∈ run, isSpace c = true) ∧ cs = run ++ rest := by
  cases cs with
  | nil => cases h
  | cons c cs =>
    rw [spaces] at h
    split at h
    · rename_i hc
      obtain rfl := Option.some.inj h
      obtain ⟨run, hcs, hrun⟩ := exists_eq_append_dropWhile isSpace cs
      refine ⟨c :: run, ⟨List.cons_ne_nil _ _, ?_⟩, congrArg (c :: ·) hcs⟩
      exact List.forall_mem_cons.mpr ⟨hc, hrun⟩
    · cases h

theorem spaces_append {run rest : List Char} (hne : run ≠ [])
    (hrun : ∀ c ∈ run, isSpace c = true) (hrest : rest.head?.any isSpace = false) :
    spaces (run ++ rest) = some rest := by
  cases run with
  | nil => exact absurd rfl hne
  | cons c run =>
    obtain ⟨hc, hrun⟩ := List.forall_mem_cons.mp hrun
    rw [List.cons_append, spaces, if_pos hc, trimStart, dropWhile_append_run hrun hrest]

theorem spaces_suffix {cs rest : List Char} (h : spaces cs = some rest) : rest <:+ cs := by
  obtain ⟨run, -, hcs⟩ := exists_of_spaces h
  exact ⟨run, hcs.symm⟩

theorem exists_of_blanks {cs rest : List Char} (h : blanks cs = some rest) :
    ∃ run, (run ≠ [] ∧ ∀ c ∈ run, isBlank c = true) ∧ cs = run ++ rest := by
  cases cs with
  | nil => cases h
  | cons c cs =>
    rw [blanks] at h
    split at h
    · rename_i hc
      obtain rfl := Option.some.inj h
      obtain ⟨run, hcs, hrun⟩ := exists_eq_append_dropWhile isBlank cs
      refine ⟨c :: run, ⟨List.cons_ne_nil _ _, ?_⟩, congrArg (c :: ·) hcs⟩
      exact List.forall_mem_cons.mpr ⟨hc, hrun⟩
    · cases h

theorem blanks_append {run rest : List Char} (hne : run ≠ [])
    (hrun : ∀ c ∈ run, isBlank c = true) (hrest : rest.head?.any isBlank = false) :
    blanks (run ++ rest) = some rest := by
  cases run with
  | nil => exact absurd rfl hne
  | cons c run =>
    obtain ⟨hc, hrun⟩ := List.forall_mem_cons.mp hrun
    rw [List.cons_append, blanks, if_pos hc, dropWhile_append_run hrun hrest]

theorem exists_of_identifier {cs rest : List Char} (h : identifier cs = some rest) :
    ∃ c name, cs = c :: name ++ rest ∧ isIdentStart c = true ∧
      ∀ d ∈ name, isIdentPart d = true := by
  cases cs with
  | nil => cases h
  | cons c cs =>
    rw [identifier] at h
    split at h
    · rename_i hc
      obtain rfl := Option.some.inj h
      obtain ⟨name, hcs, hname⟩ := exists_eq_append_dropWhile isIdentPart cs
      exact ⟨c, name, congrArg (c :: ·) hcs, hc, hname⟩
    · cases h

theorem identifier_suffix {cs rest : List Char} (h : identifier cs = some rest) : rest <:+ cs := by
  obtain ⟨c, name, hcs, -⟩ := exists_of_identifier h
  exact ⟨c :: name, hcs.symm⟩

/-- What is left behind a part that need not be there. -/
theorem getD_suffix {part : List Char → Option (List Char)}
    (hpart : ∀ {cs rest}, part cs = some rest → rest <:+ cs) (cs : List Char) :
    (part cs).getD cs <:+ cs := by
  cases h : part cs with
  | none => exact List.suffix_refl cs
  | some rest => exact hpart h

theorem digits_eq_some {cs found rest : List Char} (h : digits cs = some (found, rest)) :
    cs = found ++ rest ∧ found ≠ [] ∧ ∀ c ∈ found, isDigit c = true := by
  have hall : ∀ c ∈ (spanOf isDigit cs).1, isDigit c = true := fun _ => List.mem_takeWhile_imp
  have hcs := spanOf_append isDigit cs
  unfold digits at h
  split at h
  · cases h
  · rename_i hne
    rw [Option.some.injEq] at h
    rw [h] at hall hcs
    refine ⟨hcs.symm, ?_, hall⟩
    rintro rfl
    exact hne rest h

theorem digits_append {run rest : List Char} (hne : run ≠ [])
    (hrun : ∀ c ∈ run, isDigit c = true) (hrest : rest.head?.any isDigit = false) :
    digits (run ++ rest) = some (run, rest) := by
  have hspan : spanOf isDigit (run ++ rest) = (run, rest) := by
    have hrest := dropWhile_append_run hrun hrest
    have hall := List.takeWhile_append_dropWhile (p := isDigit) (l := run ++ rest)
    rw [hrest] at hall
    rw [spanOf, hrest, List.append_cancel_right hall]
  rw [digits, hspan]
  split
  · rename_i heq
    exact absurd (congrArg Prod.fst heq) hne
  · rfl

/-- What ends a word before a stretch ends it before all that begins with the stretch. -/
theorem wordEnd_append {a : List Char} (ha : a ≠ []) (b : List Char) :
    wordEnd (a ++ b) = wordEnd a := by
  cases a with
  | nil => exact absurd rfl ha
  | cons c a => rfl

/-- The last character of a stretch, or the one before it. -/
theorem getLast?_cons_or (c : Char) (front : List Char) (before : Option Char) :
    (c :: front).getLast?.or before = front.getLast?.or (some c) := by
  rw [List.getLast?_cons]
  cases front.getLast? <;> rfl

/-! ## Patterns -/

variable {α : Type}

@[simp] theorem Hit.size_upTo (v : α) (t rest : List Char) :
    (Hit.upTo v (t ++ rest) rest).size = t.length := by
  simp [Hit.upTo]

theorem Hit.size_upTo_of_eq (v : α) {cs t rest : List Char} (h : cs = t ++ rest) :
    (Hit.upTo v cs rest).size = t.length := by
  rw [h, size_upTo]

@[simp] theorem Hit.value_upTo (v : α) (cs rest : List Char) : (Hit.upTo v cs rest).value = v := rfl

namespace Pattern

variable {p : Pattern α} {P : Option Char → α → List Char → List Char → Prop}

/-- `p.Takes P`: what `p` recognises is a stretch of the text that is not empty, and `P` holds of
the character before it, the value, the stretch and the text behind it. -/
def Takes (p : Pattern α) (P : Option Char → α → List Char → List Char → Prop) : Prop :=
  ∀ before cs h, p before cs = some h →
    ∃ t rest, cs = t ++ rest ∧ t ≠ [] ∧ h.size = t.length ∧ P before h.value t rest

theorem Takes.mono {Q : Option Char → α → List Char → List Char → Prop} (hp : p.Takes P)
    (hPQ : ∀ before v t rest, P before v t rest → Q before v t rest) : p.Takes Q := by
  intro before cs h hh
  obtain ⟨t, rest, hcs, ht, hsize, hP⟩ := hp before cs h hh
  exact ⟨t, rest, hcs, ht, hsize, hPQ _ _ _ _ hP⟩

/-- Of what a pattern recognises, two things are known together. -/
theorem Takes.and {Q : Option Char → α → List Char → List Char → Prop} (hp : p.Takes P)
    (hq : p.Takes Q) : p.Takes fun before v t rest => P before v t rest ∧ Q before v t rest := by
  intro before cs h hh
  obtain ⟨t, rest, hcs, ht, hsize, hP⟩ := hp before cs h hh
  obtain ⟨t', rest', hcs', -, hsize', hQ⟩ := hq before cs h hh
  obtain ⟨rfl, rfl⟩ := List.append_inj (hcs.symm.trans hcs') (hsize.symm.trans hsize')
  exact ⟨t, rest, hcs, ht, hsize, hP, hQ⟩

/-- A whole word is taken as it is, between characters that are no part of it. -/
theorem takes_wholeWord {w : String} (hw : w.toList ≠ []) :
    (wholeWord w).Takes fun before _ t rest =>
      t = w.toList ∧ wordStart before = true ∧ wordEnd rest = true := by
  intro before cs h hh
  simp only [wholeWord, Option.bind_eq_bind, Option.bind_eq_some_iff, Option.guard_eq_some',
    literal_eq_some, Option.pure_def, Option.some.injEq] at hh
  obtain ⟨-, hbefore, rest, rfl, -, hrest, rfl⟩ := hh
  exact ⟨w.toList, rest, rfl, hw, by simp, rfl, hbefore, hrest⟩

theorem wholeWord_append {w : String} {before : Option Char} {rest : List Char}
    (hbefore : wordStart before = true) (hrest : wordEnd rest = true) :
    wholeWord w before (w.toList ++ rest) = some (.upTo () (w.toList ++ rest) rest) := by
  have hw : literal w (w.toList ++ rest) = some rest := literal_eq_some.mpr rfl
  simp [wholeWord, hw, hbefore, hrest]

/-! ## Searches -/

/-- The search goes on behind the stretch that was recognised. -/
theorem pieces_of_hit {before : Option Char} {t rest : List Char} {h : Hit α}
    (hp : p before (t ++ rest) = some h) (ht : t ≠ []) (hsize : h.size = t.length) :
    p.pieces before (t ++ rest) = .hit h.value t :: p.pieces t.getLast? rest := by
  cases t with
  | nil => exact absurd rfl ht
  | cons c t =>
    rw [List.cons_append] at hp ⊢
    rw [pieces, hp]
    simp [hsize, List.getLast?_cons]

theorem pieces_of_gap {before : Option Char} {c : Char} {cs : List Char}
    (hp : p before (c :: cs) = none) :
    p.pieces before (c :: cs) = .gap c :: p.pieces (some c) cs := by
  rw [pieces, hp]

/-- Induction along a search. -/
theorem Takes.induction (hp : p.Takes P)
    {motive : Option Char → List Char → List (Piece α) → Prop}
    (nil : ∀ before, motive before [] [])
    (gap : ∀ before c cs, p before (c :: cs) = none →
      motive (some c) cs (p.pieces (some c) cs) →
      motive before (c :: cs) (.gap c :: p.pieces (some c) cs))
    (hit : ∀ before v t rest, t ≠ [] → P before v t rest →
      motive t.getLast? rest (p.pieces t.getLast? rest) →
      motive before (t ++ rest) (.hit v t :: p.pieces t.getLast? rest))
    (before : Option Char) (cs : List Char) : motive before cs (p.pieces before cs) := by
  induction hn : cs.length using Nat.strongRecOn generalizing before cs with
  | ind n ih =>
    cases cs with
    | nil =>
      rw [pieces]
      exact nil before
    | cons c cs =>
      cases hh : p before (c :: cs) with
      | none =>
        rw [pieces_of_gap hh]
        exact gap before c cs hh (ih cs.length (by simp [← hn]) _ _ rfl)
      | some h =>
        obtain ⟨t, rest, hcs, ht, hsize, hP⟩ := hp _ _ _ hh
        rw [hcs] at hh hn ⊢
        rw [pieces_of_hit hh ht hsize]
        have hlt : rest.length < n := by
          have := List.length_pos_iff.mpr ht
          rw [← hn, List.length_append]
          omega
        exact hit before h.value t rest ht hP (ih rest.length hlt _ _ rfl)

/-- What is known of every stretch that a pattern recognises is known of every hit, with the text of
the pieces behind it. -/
theorem Takes.of_pieces_eq (hp : p.Takes P) {before : Option Char} {cs : List Char} {v : α}
    {t : List Char} {pre post : List (Piece α)}
    (h : p.pieces before cs = pre ++ .hit v t :: post) :
    t ≠ [] ∧ ∃ b, P b v t (post.flatMap Piece.text) := by
  refine hp.induction (motive := fun _ _ ps => ∀ pre, ps = pre ++ .hit v t :: post →
    t ≠ [] ∧ ∃ b, P b v t (post.flatMap Piece.text)) ?_ ?_ ?_ before cs pre h
  · intro _ pre heq
    simp at heq
  · intro _ c cs _ ih pre heq
    rcases List.cons_eq_append_iff.mp heq with ⟨-, heq⟩ | ⟨pre, -, heq⟩
    · cases heq
    · exact ih pre heq
  · intro b w u rest hu hP ih pre heq
    rcases List.cons_eq_append_iff.mp heq with ⟨-, heq⟩ | ⟨pre, -, heq⟩
    · cases heq
      rw [text_pieces]
      exact ⟨hu, b, hP⟩
    · exact ih pre heq

theorem Takes.of_mem_pieces (hp : p.Takes P) {before : Option Char} {cs : List Char} {v : α}
    {t : List Char} (h : .hit v t ∈ p.pieces before cs) : t ≠ [] ∧ ∃ b rest, P b v t rest := by
  obtain ⟨pre, post, heq⟩ := List.append_of_mem h
  obtain ⟨ht, b, hP⟩ := hp.of_pieces_eq heq
  exact ⟨ht, b, _, hP⟩

/-- Where a pattern recognises something, a search finds something. -/
theorem filterMap_pieces_ne_nil {before : Option Char} {front cs : List Char} {h : Hit α}
    (hne : cs ≠ []) (hh : p (front.getLast?.or before) cs = some h) :
    (p.pieces before (front ++ cs)).filterMap Piece.value? ≠ [] := by
  induction front generalizing before with
  | nil =>
    obtain ⟨c, cs, rfl⟩ := List.exists_cons_of_ne_nil hne
    rw [List.getLast?_nil, Option.none_or] at hh
    rw [List.nil_append, pieces, hh]
    simp [Piece.value?]
  | cons c front ih =>
    rw [List.cons_append]
    cases hc : p before (c :: (front ++ cs)) with
    | none =>
      rw [pieces_of_gap hc]
      rw [getLast?_cons_or] at hh
      exact ih hh
    | some h =>
      rw [pieces, hc]
      simp [Piece.value?]

end Pattern

/-! ## Replacements -/

/-- A piece of a text in which every hit is replaced. -/
def Piece.replaced (f : α → List Char → List Char) : Piece α → List Char
  | gap c => [c]
  | hit v t => f v t

theorem Pattern.replace_eq (p : Pattern α) (f : α → List Char → List Char) (cs : List Char) :
    p.replace f cs = (p.pieces none cs).flatMap (Piece.replaced f) := rfl

/-- Erasing replaces every hit by nothing. -/
theorem Piece.gapText_eq_replaced : (gapText : Piece α → List Char) = replaced fun _ _ => [] := by
  funext piece
  cases piece <;> rfl

theorem flatMap_replaced_gaps (f : α → List Char → List Char) (cs : List Char) :
    (cs.map .gap).flatMap (Piece.replaced f) = cs := by
  induction cs with
  | nil => rfl
  | cons c cs ih => exact congrArg (c :: ·) ih

theorem flatMap_gapText_gaps (cs : List Char) :
    (cs.map (.gap : Char → Piece α)).flatMap Piece.gapText = cs := by
  rw [Piece.gapText_eq_replaced, flatMap_replaced_gaps]

theorem filterMap_value?_gaps (cs : List Char) :
    (cs.map (.gap : Char → Piece α)).filterMap Piece.value? = [] := by
  induction cs with
  | nil => rfl
  | cons c cs ih => rw [List.map_cons, List.filterMap_cons_none rfl, ih]

end ContractBuild.Text
