import ContractBuild.Fix.Transform
import ContractBuild.Proofs.Directives.Search
import Mathlib.Data.List.Infix

/-!
# Qualifiers that are removed

Both `override` and `onlyInitializing` are removed as words behind blanks, with the parentheses
behind them. What follows a removed stretch moves up to what stood before it.

- **Words behind blanks** (`Qualified`): what either search looks for.
- **Seams** (`resumes`, `removedApart`): a removed stretch leaves no new word behind blanks if the
  text behind it does not go on with an ending of the word.
- **Cuts** (`Cut`): the pieces of a search whose removed stretches stand apart. Only definitions are
  left of the words behind blanks (`Cut.not_qualified`, `Cut.defined`).
-/

namespace ContractBuild.Fix

open Text

/-! ## Words behind blanks -/

/-- `Qualified w cs`: the word `w` stands at the front of `cs`, behind at least one blank. -/
def Qualified (w : String) (cs : List Char) : Prop :=
  ∃ run rest, (run ≠ [] ∧ ∀ c ∈ run, isBlank c = true) ∧ wordEnd rest = true ∧
    cs = run ++ (w.toList ++ rest)

theorem isWord_of_isBlank {c : Char} (h : isBlank c = true) : isWord c = false := by
  rw [isBlank, Bool.or_eq_true, beq_iff_eq, beq_iff_eq] at h
  rcases h with rfl | rfl <;> rfl

namespace Qualified

variable {w : String} {c : Char} {cs rest : List Char}

theorem exists_cons (h : Qualified w cs) : ∃ c more, cs = c :: more ∧ isBlank c = true := by
  obtain ⟨run, rest, ⟨hne, hrun⟩, -, rfl⟩ := h
  obtain ⟨c, run, rfl⟩ := List.exists_cons_of_ne_nil hne
  exact ⟨c, _, rfl, hrun c (List.mem_cons_self ..)⟩

theorem isBlank_head (h : Qualified w (c :: cs)) : isBlank c = true := by
  obtain ⟨_, _, heq, hc⟩ := h.exists_cons
  obtain ⟨rfl, -⟩ := List.cons.inj heq
  exact hc

theorem wordEnd_front (h : Qualified w cs) : wordEnd cs = true := by
  obtain ⟨c, more, rfl, hc⟩ := h.exists_cons
  simp [wordEnd, isWord_of_isBlank hc]

/-- One blank less in front of the word. -/
theorem of_cons (h : Qualified w (c :: cs)) :
    Qualified w cs ∨ ∃ rest, cs = w.toList ++ rest ∧ wordEnd rest = true := by
  obtain ⟨run, rest, ⟨hne, hrun⟩, hrest, heq⟩ := h
  obtain ⟨d, run, rfl⟩ := List.exists_cons_of_ne_nil hne
  obtain ⟨rfl, rfl⟩ := List.cons.inj heq
  by_cases hnil : run = []
  · subst hnil
    exact .inr ⟨rest, rfl, hrest⟩
  · exact .inl ⟨run, rest, ⟨hnil, (List.forall_mem_cons.mp hrun).2⟩, hrest, rfl⟩

/-- More blanks in front of the word. -/
theorem append {run : List Char} (hrun : ∀ c ∈ run, isBlank c = true) (h : Qualified w cs) :
    Qualified w (run ++ cs) := by
  obtain ⟨run', rest, ⟨hne, hrun'⟩, hrest, rfl⟩ := h
  refine ⟨run ++ run', rest, ⟨by simp [hne], ?_⟩, hrest, (List.append_assoc ..).symm⟩
  exact List.forall_mem_append.mpr ⟨hrun, hrun'⟩

end Qualified

/-- A word that is searched for: it is not empty, and it has not the letter that definitions begin
with. -/
structure Keyword (w : String) : Prop where
  all_isWord : w.toList.all isWord = true
  ne_nil : w.toList ≠ []
  m_notMem : 'm' ∉ w.toList

theorem keyword_override : Keyword "override" := ⟨by decide, by decide, by decide⟩

theorem keyword_onlyInitializing : Keyword "onlyInitializing" := ⟨by decide, by decide, by decide⟩

theorem Keyword.exists_cons {w : String} (h : Keyword w) :
    ∃ c cs, w.toList = c :: cs ∧ isWord c = true := by
  obtain ⟨c, cs, hcs⟩ := List.exists_cons_of_ne_nil h.ne_nil
  have hall := h.all_isWord
  rw [hcs, List.all_cons, Bool.and_eq_true] at hall
  exact ⟨c, cs, hcs, hall.1⟩

/-- The blanks before a word are skipped. -/
theorem blanks_word {w : String} (hw : Keyword w) {run : List Char}
    (hrun : run ≠ [] ∧ ∀ c ∈ run, isBlank c = true) (rest : List Char) :
    blanks (run ++ (w.toList ++ rest)) = some (w.toList ++ rest) := by
  refine blanks_append hrun.1 hrun.2 ?_
  obtain ⟨c, cs, hcs, hc⟩ := hw.exists_cons
  rw [hcs]
  cases hblank : isBlank c with
  | false => exact hblank
  | true =>
    rw [isWord_of_isBlank hblank] at hc
    cases hc

/-! ## Seams -/

/-- Whether a text goes on with an ending of the word `w`. -/
def resumes (w : String) (cs : List Char) : Bool :=
  w.toList.tail.tails.any fun ending => !ending.isEmpty && (ending.isPrefixOf? cs).any wordEnd

theorem resumes_of_append {w : String} {ending rest : List Char} (h : ending <:+ w.toList.tail)
    (hne : ending ≠ []) (hrest : wordEnd rest = true) : resumes w (ending ++ rest) = true := by
  have htaken : ending.isPrefixOf? (ending ++ rest) = some rest :=
    List.isPrefixOf?_eq_some_iff_append_eq.mpr rfl
  refine List.any_eq_true.mpr ⟨ending, (List.mem_tails _ _).mpr h, ?_⟩
  simp [htaken, hne, hrest]

section

variable {α : Type} (kept : α → Bool) (w : String)

/-- Whether the first piece is a hit that is kept. -/
def startsKept : List (Piece α) → Bool
  | .hit v _ :: _ => kept v
  | _ => false

/-- Whether behind every hit that is removed the text neither goes on with an ending of the word `w`
nor with a hit that is kept. -/
def removedApart : List (Piece α) → Bool
  | [] => true
  | .gap _ :: ps => removedApart ps
  | .hit v _ :: ps =>
    (kept v || !(resumes w (ps.flatMap Piece.text) || startsKept kept ps)) && removedApart ps

/-- The pieces put together without the hits that are removed. -/
def keptText (ps : List (Piece α)) : List Char :=
  ps.flatMap (Piece.replaced fun v t => if kept v then t else [])

end

/-! ## Definitions -/

/-- Empty parentheses. -/
inductive EmptyArguments : List Char → Prop where
  | form {s s' : List Char} (hs : ∀ c ∈ s, isSpace c = true) (hs' : ∀ c ∈ s', isSpace c = true) :
      EmptyArguments (s ++ ("(".toList ++ (s' ++ ")".toList)))

/-- The definition of the modifier `w`. -/
inductive Definition (w : String) : List Char → Prop where
  | form {run args : List Char} (hrun : run ≠ [] ∧ ∀ c ∈ run, isBlank c = true)
      (hargs : args = [] ∨ EmptyArguments args) :
      Definition w ("modifier".toList ++ (run ++ (w.toList ++ args)))

theorem exists_of_emptyArguments {cs rest : List Char} (h : emptyArguments cs = some rest) :
    ∃ args, EmptyArguments args ∧ cs = args ++ rest := by
  obtain ⟨s, hcs, hs⟩ := exists_eq_append_dropWhile isSpace cs
  rw [emptyArguments] at h
  split at h
  · rename_i inner hinner
    obtain ⟨s', hs', hblank⟩ := exists_eq_append_dropWhile isSpace inner
    rw [← trimStart, literal_eq_some.mp h] at hs'
    rw [← trimStart, hinner, hs'] at hcs
    exact ⟨_, .form hs hblank, by rw [hcs]; simp⟩
  · cases h

/-- The parentheses behind a word, if there are any. -/
theorem exists_getD_emptyArguments (cs : List Char) :
    ∃ args, (args = [] ∨ EmptyArguments args) ∧ cs = args ++ (emptyArguments cs).getD cs := by
  cases h : emptyArguments cs with
  | none => exact ⟨[], .inl rfl, rfl⟩
  | some rest =>
    obtain ⟨args, hargs, hcs⟩ := exists_of_emptyArguments h
    exact ⟨args, .inr hargs, hcs⟩

/-- No character of empty parentheses is part of a word. -/
theorem EmptyArguments.isWord_of_mem {args : List Char} (h : EmptyArguments args) :
    ∀ c ∈ args, isWord c = false := by
  obtain @⟨s, s', hs, hs'⟩ := h
  simp only [List.forall_mem_append]
  exact ⟨fun c hc => isWord_of_isSpace (hs c hc), by simp; rfl,
    fun c hc => isWord_of_isSpace (hs' c hc), by simp; rfl⟩

theorem EmptyArguments.getLast? {args : List Char} (h : EmptyArguments args) :
    args.getLast? = some ')' := by
  obtain @⟨s, s', -, -⟩ := h
  rw [← List.append_assoc, ← List.append_assoc, List.getLast?_append_of_ne_nil _ (by decide)]
  rfl

/-- A character that is no part of a word stands behind a word at the front. -/
theorem exists_of_word_append {u v front more : List Char} {c : Char} (hu : u.all isWord = true)
    (hc : isWord c = false) (heq : u ++ v = front ++ c :: more) :
    ∃ front', front = u ++ front' ∧ v = front' ++ c :: more := by
  rcases List.append_eq_append_iff.mp heq with ⟨front', rfl, hv⟩ | ⟨last, rfl, hlast⟩
  · exact ⟨front', rfl, hv⟩
  · cases last with
    | nil => exact ⟨[], by simp, hlast.symm⟩
    | cons d last =>
      obtain ⟨rfl, -⟩ := List.cons.inj hlast
      simp [hc] at hu

section

variable {w : String} (hw : Keyword w)

include hw

/-- No word behind blanks begins in the parentheses of a definition. -/
theorem EmptyArguments.not_qualified {args tail : List Char}
    (h : EmptyArguments args) (htail : tail <:+ args) (hnil : tail ≠ []) (rest : List Char) :
    ¬ Qualified w (tail ++ rest) := by
  rintro ⟨run, behind, ⟨-, hrun⟩, -, heq⟩
  have hmem : ')' ∈ tail := by
    obtain ⟨front, hfront⟩ := htail
    have hlast := h.getLast?
    rw [← hfront, List.getLast?_append_of_ne_nil _ hnil] at hlast
    exact List.mem_of_getLast? hlast
  rcases List.append_eq_append_iff.mp heq with ⟨more, rfl, -⟩ | ⟨more, rfl, hmore⟩
  · have hblank := hrun ')' (List.mem_append_left more hmem)
    cases hblank
  · obtain ⟨c, cs, hcs, hword⟩ := hw.exists_cons
    rw [hcs] at hmore
    cases more with
    | nil =>
      rw [List.append_nil] at hmem
      cases hrun ')' hmem
    | cons d more =>
      obtain ⟨hc, -⟩ := List.cons.inj hmore
      have hno : isWord d = false := h.isWord_of_mem d (htail.subset (by simp))
      rw [← hc, hword] at hno
      cases hno

/-- In a definition a word behind blanks begins behind `modifier`. -/
theorem Definition.eq_of_qualified {front tail rest : List Char} (h : Definition w (front ++ tail))
    (hnil : tail ≠ []) (hword : Qualified w (tail ++ rest)) :
    ∃ run, (∀ c ∈ run, isBlank c = true) ∧ front = "modifier".toList ++ run := by
  generalize ht : front ++ tail = t at h
  obtain @⟨run, args, ⟨-, hrun⟩, hargs⟩ := h
  obtain ⟨c, more, rfl⟩ := List.exists_cons_of_ne_nil hnil
  -- the tail begins with a blank, so neither in `modifier` nor in the word
  have hc : isWord c = false := isWord_of_isBlank hword.isBlank_head
  obtain ⟨front, rfl, hbehind⟩ := exists_of_word_append (by decide) hc ht.symm
  refine ⟨front, ?_, rfl⟩
  rcases List.append_eq_append_iff.mp hbehind with ⟨front, rfl, hargument⟩ | ⟨last, rfl, -⟩
  · obtain ⟨front, rfl, rfl⟩ := exists_of_word_append hw.all_isWord hc hargument
    have hparentheses : EmptyArguments (front ++ c :: more) := hargs.resolve_left (by simp)
    exact absurd hword (hparentheses.not_qualified hw (List.suffix_append ..) hnil rest)
  · exact (List.forall_mem_append.mp hrun).1

end

/-! ## Cuts -/

section

variable {α : Type} {kept : α → Bool} {w : String} {ps : List (Piece α)}

/-- Pieces of a search for `w` behind blanks, in which what is removed stands apart from what
follows it. The hits that are kept are definitions, where a word may start. -/
inductive Cut (kept : α → Bool) (w : String) : List (Piece α) → Prop where
  | nil : Cut kept w []
  | gap {c : Char} {ps : List (Piece α)} (hc : ¬ Qualified w (c :: ps.flatMap Piece.text))
      (hnext : startsKept kept ps = true → wordStart (some c) = true) (h : Cut kept w ps) :
      Cut kept w (.gap c :: ps)
  | removed {v : α} {t : List Char} {ps : List (Piece α)} (hv : kept v = false)
      (ht : Qualified w (t ++ ps.flatMap Piece.text))
      (hresumes : resumes w (ps.flatMap Piece.text) = false) (hnext : startsKept kept ps = false)
      (h : Cut kept w ps) : Cut kept w (.hit v t :: ps)
  | kept {v : α} {t : List Char} {ps : List (Piece α)} (hv : kept v = true) (ht : Definition w t)
      (hnext : startsKept kept ps = true → wordStart t.getLast? = true) (h : Cut kept w ps) :
      Cut kept w (.hit v t :: ps)

theorem keptText_gap (c : Char) (ps : List (Piece α)) :
    keptText kept (.gap c :: ps) = c :: keptText kept ps := rfl

theorem keptText_removed {v : α} (hv : kept v = false) (t : List Char) (ps : List (Piece α)) :
    keptText kept (.hit v t :: ps) = keptText kept ps := by
  simp [keptText, Piece.replaced, hv]

theorem keptText_kept {v : α} (hv : kept v = true) (t : List Char) (ps : List (Piece α)) :
    keptText kept (.hit v t :: ps) = t ++ keptText kept ps := by
  simp [keptText, Piece.replaced, hv]

/-- The first letter of a definition is the only `m` in it. -/
theorem Definition.exists_cons (hw : Keyword w) {t : List Char} (h : Definition w t) :
    ∃ more, t = 'm' :: more ∧ 'm' ∉ more := by
  obtain @⟨run, args, ⟨-, hrun⟩, hargs⟩ := h
  have hargs : 'm' ∉ args := by
    rcases hargs with rfl | hargs
    · simp
    · exact fun hmem => absurd (hargs.isWord_of_mem _ hmem) (by decide)
  refine ⟨"odifier".toList ++ (run ++ (w.toList ++ args)), rfl, ?_⟩
  simp only [List.mem_append, not_or]
  exact ⟨by decide, fun hmem => absurd (hrun _ hmem) (by decide), hw.m_notMem, hargs⟩

/-- Where an ending of the word stands at the front of what is left, it stood there before. -/
theorem Cut.ending (hw : Keyword w) (h : Cut kept w ps) {ending rest : List Char}
    (hending : ending <:+ w.toList.tail) (hout : keptText kept ps = ending ++ rest)
    (hrest : wordEnd rest = true) :
    ∃ rest', ps.flatMap Piece.text = ending ++ rest' ∧ wordEnd rest' = true := by
  induction h generalizing ending with
  | nil => exact ⟨rest, hout, hrest⟩
  | @gap c ps _ _ _ ih =>
    rw [keptText_gap] at hout
    cases ending with
    | nil =>
      obtain rfl : c :: keptText kept ps = rest := hout
      exact ⟨_, rfl, hrest⟩
    | cons d ending =>
      obtain ⟨rfl, htail⟩ := List.cons.inj hout
      obtain ⟨rest', htext, hrest'⟩ := ih ((List.suffix_cons c ending).trans hending) htail
      exact ⟨rest', congrArg (c :: ·) htext, hrest'⟩
  | @removed v t ps hv ht hresumes _ _ ih =>
    rw [keptText_removed hv] at hout
    obtain ⟨rest', htext, hrest'⟩ := ih hending hout
    by_cases hnil : ending = []
    · exact ⟨t ++ ps.flatMap Piece.text, by rw [hnil]; rfl, ht.wordEnd_front⟩
    · rw [htext, resumes_of_append hending hnil hrest'] at hresumes
      cases hresumes
  | @kept v t ps hv ht _ _ _ =>
    obtain ⟨more, rfl, -⟩ := ht.exists_cons hw
    rw [keptText_kept hv] at hout
    cases ending with
    | nil =>
      obtain rfl : 'm' :: more ++ keptText kept ps = rest := hout
      exact ⟨_, rfl, hrest⟩
    | cons d ending =>
      obtain ⟨rfl, -⟩ := List.cons.inj hout
      exact absurd (List.mem_of_mem_tail (hending.subset (List.mem_cons_self ..))) hw.m_notMem

/-- Where the word stands at the front of what is left, it stood behind a blank before. -/
theorem Cut.qualified_cons (hw : Keyword w) (h : Cut kept w ps) {c : Char} (hc : isBlank c = true) {rest : List Char} (hout : keptText kept ps = w.toList ++ rest)
    (hrest : wordEnd rest = true) : Qualified w (c :: ps.flatMap Piece.text) := by
  obtain ⟨d, ending, hcs, -⟩ := hw.exists_cons
  have hblank : ∀ x ∈ [c], isBlank x = true := by simpa using hc
  cases h with
  | nil =>
    rw [hcs] at hout
    cases hout
  | @gap x ps _ _ h =>
    rw [keptText_gap, hcs] at hout
    obtain ⟨rfl, htail⟩ := List.cons.inj hout
    obtain ⟨rest', htext, hrest'⟩ := h.ending hw (by simp [hcs]) htail hrest
    refine ⟨[c], rest', ⟨by simp, hblank⟩, hrest', ?_⟩
    simp [hcs, htext, Piece.text]
  | removed _ ht => exact ht.append hblank
  | kept hv ht =>
    obtain ⟨more, rfl, -⟩ := ht.exists_cons hw
    rw [keptText_kept hv, hcs] at hout
    obtain ⟨rfl, -⟩ := List.cons.inj hout
    exact absurd (by simp [hcs]) hw.m_notMem

/-- What is left does not begin with the word behind blanks. -/
theorem Cut.not_qualified (hw : Keyword w) (h : Cut kept w ps) :
    ¬ Qualified w (keptText kept ps) := by
  induction h with
  | nil =>
    intro hword
    obtain ⟨c, more, hnil, -⟩ := hword.exists_cons
    cases hnil
  | @gap c ps hc _ h ih =>
    rw [keptText_gap]
    intro hword
    rcases hword.of_cons with hmore | ⟨rest, hout, hrest⟩
    · exact ih hmore
    · exact hc (h.qualified_cons hw hword.isBlank_head hout hrest)
  | removed hv _ _ _ _ ih =>
    rw [keptText_removed hv]
    exact ih
  | kept hv ht =>
    obtain ⟨more, rfl, -⟩ := ht.exists_cons hw
    rw [keptText_kept hv]
    intro hword
    cases hword.isBlank_head

/-- `Defined w before cs`: where the word `w` stands behind blanks in `cs`, it is defined there. -/
def Defined (w : String) (before : Option Char) (cs : List Char) : Prop :=
  ∀ front tail, cs = front ++ tail → Qualified w tail → ∃ start run,
    (∀ c ∈ run, isBlank c = true) ∧ front = start ++ ("modifier".toList ++ run) ∧
      wordStart (start.getLast?.or before) = true

/-- **Only definitions are left** of the words behind blanks. -/
theorem Cut.defined (hw : Keyword w) (h : Cut kept w ps) {before : Option Char}
    (hbefore : startsKept kept ps = true → wordStart before = true) :
    Defined w before (keptText kept ps) := by
  induction h generalizing before with
  | nil =>
    intro front tail heq hword
    obtain ⟨c, more, rfl, -⟩ := hword.exists_cons
    simp [keptText] at heq
  | @gap c ps hc hnext h ih =>
    intro front tail heq hword
    cases front with
    | nil =>
      obtain rfl : keptText kept (.gap c :: ps) = tail := heq
      exact absurd hword ((Cut.gap hc hnext h).not_qualified hw)
    | cons d front =>
      obtain ⟨rfl, htail⟩ := List.cons.inj heq
      obtain ⟨start, run, hrun, rfl, hstart⟩ := ih hnext front tail htail hword
      exact ⟨c :: start, run, hrun, rfl, by rwa [getLast?_cons_or]⟩
  | removed hv _ _ hnext _ ih =>
    rw [keptText_removed hv]
    exact ih fun hkept => absurd hkept (by simp [hnext])
  | @kept v t ps hv ht hnext h ih =>
    rw [keptText_kept hv]
    intro front tail heq hword
    rcases List.append_eq_append_iff.mp heq with ⟨front, rfl, htail⟩ | ⟨last, rfl, rfl⟩
    · obtain ⟨start, run, hrun, rfl, hstart⟩ := ih hnext front tail htail hword
      obtain ⟨more, rfl, -⟩ := ht.exists_cons hw
      refine ⟨'m' :: more ++ start, run, hrun, (List.append_assoc ..).symm, ?_⟩
      rwa [List.getLast?_append, Option.or_assoc, List.getLast?_cons, Option.some_or,
        ← List.getLast?_cons]
    · by_cases hnil : last = []
      · subst hnil
        exact absurd hword (h.not_qualified hw)
      · obtain ⟨run, hrun, rfl⟩ := ht.eq_of_qualified hw hnil hword
        exact ⟨[], run, hrun, rfl, hbefore hv⟩

/-- A definition is more than `modifier` and blanks. -/
theorem Definition.ne_blanks (hw : Keyword w) {t run : List Char} (h : Definition w t) (hrun : ∀ c ∈ run, isBlank c = true)
    (front : List Char) : "modifier".toList ++ run ≠ t ++ front := by
  obtain @⟨run', args, -, -⟩ := h
  intro heq
  obtain ⟨c, cs, hcs, hc⟩ := hw.exists_cons
  rw [List.append_assoc] at heq
  have hmem : c ∈ run := by
    rw [List.append_cancel_left heq, hcs]
    simp
  rw [isWord_of_isBlank (hrun c hmem)] at hc
  cases hc

/-- What is defined in a text is defined in the text behind a definition. -/
theorem Defined.behind (hw : Keyword w) {t rest : List Char} (ht : Definition w t)
    {before : Option Char} (h : Defined w before (t ++ rest)) : Defined w t.getLast? rest := by
  rintro front tail rfl hword
  obtain ⟨more, hmore, hnotMem⟩ := ht.exists_cons hw
  obtain ⟨start, run, hrun, heq, hstart⟩ := h (t ++ front) tail (List.append_assoc ..).symm hword
  have hlast : t.getLast?.or before = t.getLast? := by
    rw [hmore, List.getLast?_cons, Option.some_or]
  rcases List.append_eq_append_iff.mp heq with ⟨start, rfl, hfront⟩ | ⟨u, hu, hmodifier⟩
  · rw [List.getLast?_append, Option.or_assoc, hlast] at hstart
    exact ⟨start, run, hrun, hfront, hstart⟩
  · cases u with
    | nil =>
      rw [List.append_nil] at hu
      rw [← hu, hlast] at hstart
      exact ⟨[], run, hrun, hmodifier.symm, hstart⟩
    | cons d u =>
      -- the definition of the word would start in this one
      obtain rfl : 'm' = d := (List.cons.inj hmodifier).1
      cases start with
      | nil =>
        rw [← List.nil_append ('m' :: u), ← hu] at hmodifier
        exact absurd hmodifier (ht.ne_blanks hw hrun front)
      | cons x start =>
        rw [hmore] at hu
        rw [(List.cons.inj hu).2] at hnotMem
        exact absurd (by simp) hnotMem

end

/-! ## Overrides -/

theorem contractList_suffix {cs rest : List Char} (h : contractList cs = some rest) :
    rest <:+ cs := by
  unfold contractList at h
  split at h
  · rename_i cs' hcs
    have hinner := (literal_suffix h).trans (List.dropWhile_suffix _)
    exact (hinner.trans (List.suffix_cons '(' cs')).trans (hcs ▸ List.dropWhile_suffix _)
  · cases h

theorem takes_override : overrideQualifier.Takes fun _ _ t rest =>
    "override".toList <:+: t ∧ Qualified "override" (t ++ rest) := by
  intro before cs h hh
  simp only [overrideQualifier, Option.bind_eq_bind, Option.bind_eq_some_iff, Option.guard_eq_some',
    literal_eq_some, Option.pure_def, Option.some.injEq] at hh
  obtain ⟨_, hblanks, behind, rfl, -, hend, rfl⟩ := hh
  obtain ⟨run, hrun, rfl⟩ := exists_of_blanks hblanks
  obtain ⟨list, hlist⟩ := getD_suffix contractList_suffix behind
  generalize (contractList behind).getD behind = rest at hlist
  subst hlist
  refine ⟨run ++ ("override".toList ++ list), rest, ?_, ?_, Hit.size_upTo_of_eq _ ?_, ?_, ?_⟩
  · simp only [List.append_assoc]
  · simp
  · simp only [List.append_assoc]
  · exact ⟨run, list, List.append_assoc ..⟩
  · exact ⟨run, list ++ rest, hrun, hend, by simp only [List.append_assoc]⟩

theorem overrideQualifier_eq_none_iff {before : Option Char} {cs : List Char} :
    overrideQualifier before cs = none ↔ ¬ Qualified "override" cs := by
  constructor
  · rintro hnone ⟨run, rest, hrun, hend, rfl⟩
    simp only [overrideQualifier, blanks_word keyword_override hrun,
      literal_append, hend, guard_true, Option.bind_eq_bind, Option.bind_some, Option.pure_def,
      reduceCtorEq] at hnone
  · intro hword
    cases hh : overrideQualifier before cs with
    | none => rfl
    | some h =>
      obtain ⟨t, rest, rfl, -, -, -, hqualified⟩ := takes_override _ _ _ hh
      exact absurd hqualified hword

theorem startsKept_none {α : Type} (ps : List (Piece α)) :
    startsKept (fun _ => false) ps = false := by
  rcases ps with _ | ⟨_ | _, _⟩ <;> rfl

/-- Overrides that stand apart are cut out. -/
theorem cut_override {before : Option Char} {cs : List Char}
    (h : removedApart (fun _ => false) "override" (overrideQualifier.pieces before cs) = true) :
    Cut (fun _ => false) "override" (overrideQualifier.pieces before cs) := by
  refine takes_override.induction (motive := fun _ _ ps =>
    removedApart (fun _ => false) "override" ps = true → Cut (fun _ => false) "override" ps)
    ?_ ?_ ?_ before cs h
  · exact fun _ _ => .nil
  · intro before c cs hnone ih hapart
    refine .gap ?_ (fun hnext => ?_) (ih hapart)
    · rw [Pattern.text_pieces]
      exact overrideQualifier_eq_none_iff.mp hnone
    · rw [startsKept_none] at hnext
      cases hnext
  · rintro before v t rest _ ⟨-, hqualified⟩ ih hapart
    simp only [removedApart, Bool.false_or, Bool.and_eq_true, Bool.not_eq_true',
      Bool.or_eq_false_iff] at hapart
    obtain ⟨⟨hresumes, hnext⟩, hrest⟩ := hapart
    refine .removed rfl ?_ hresumes hnext (ih hrest)
    rwa [Pattern.text_pieces]

/-- No override is found in what is left. -/
theorem Cut.pieces_override {ps : List (Piece Unit)} (h : Cut (fun _ => false) "override" ps)
    (before : Option Char) :
    overrideQualifier.pieces before (keptText (fun _ => false) ps) =
      (keptText (fun _ => false) ps).map .gap := by
  induction h generalizing before with
  | nil => exact Pattern.pieces.eq_1 ..
  | gap hc hnext h ih =>
    have hnone := (Cut.gap hc hnext h).not_qualified keyword_override
    rw [keptText_gap] at hnone ⊢
    rw [Pattern.pieces_of_gap (overrideQualifier_eq_none_iff.mpr hnone), ih, List.map_cons]
  | removed hv _ _ _ _ ih =>
    rw [keptText_removed hv]
    exact ih before
  | kept hv => cases hv

theorem text_stripOverride (cs : List Char) :
    (stripOverride cs).text = keptText (fun _ => false) (overrideQualifier.split cs) := by
  rw [stripOverride, Pattern.erase, Piece.gapText_eq_replaced]
  rfl

/-- Whether the overrides of a text stand apart. -/
def overridesApart (cs : List Char) : Bool :=
  removedApart (fun _ => false) "override" (overrideQualifier.split cs)

/-- **Overrides that stand apart are removed at once.** -/
theorem stripOverride_again {cs : List Char} (h : overridesApart cs = true) :
    stripOverride (stripOverride cs).text = ⟨(stripOverride cs).text, 0⟩ := by
  have hgaps : overrideQualifier.split (stripOverride cs).text =
      (stripOverride cs).text.map .gap := by
    rw [text_stripOverride]
    exact (cut_override h).pieces_override none
  generalize (stripOverride cs).text = out at hgaps
  rw [stripOverride, Pattern.erase, Pattern.count, Pattern.values, hgaps, flatMap_gapText_gaps,
    filterMap_value?_gaps, List.length_nil]

/-! ## Guards -/

theorem takes_guard : initializerGuard.Takes fun before definition t rest =>
    "onlyInitializing".toList <:+: t ∧
      (definition = false ∧ Qualified "onlyInitializing" (t ++ rest) ∨
        definition = true ∧ wordStart before = true ∧ Definition "onlyInitializing" t) := by
  intro before cs h hh
  simp only [initializerGuard, Option.bind_eq_bind, Option.bind_eq_some_iff, Option.guard_eq_some',
    literal_eq_some, Option.pure_def, Option.some.injEq] at hh
  obtain ⟨_, hblanks, behind, rfl, -, hend, rfl⟩ := hh
  obtain ⟨run, hrun, hcs⟩ := exists_of_blanks hblanks
  obtain ⟨args, hargs, hbehind⟩ := exists_getD_emptyArguments behind
  generalize (emptyArguments behind).getD behind = rest at hbehind ⊢
  subst hbehind
  cases hdefinition : (if wordStart before then literal "modifier" cs else none) with
  | none =>
    rw [hdefinition, Option.getD_none] at hcs
    subst hcs
    refine ⟨run ++ ("onlyInitializing".toList ++ args), rest, ?_, ?_, Hit.size_upTo_of_eq _ ?_,
      ⟨run, args, List.append_assoc ..⟩, .inl ⟨rfl, run, args ++ rest, hrun, hend, ?_⟩⟩
    · simp only [List.append_assoc]
    · simp
    · simp only [List.append_assoc]
    · simp only [List.append_assoc]
  | some more =>
    obtain ⟨hstart, hmodifier⟩ : wordStart before = true ∧ literal "modifier" cs = some more := by
      split at hdefinition
      · exact ⟨by assumption, hdefinition⟩
      · cases hdefinition
    rw [hdefinition, Option.getD_some] at hcs
    obtain rfl := literal_eq_some.mp hmodifier
    subst hcs
    refine ⟨_, rest, ?_, ?_, Hit.size_upTo_of_eq _ ?_,
      ⟨"modifier".toList ++ run, args, ?_⟩, .inr ⟨rfl, hstart, .form hrun hargs⟩⟩
    · simp only [List.append_assoc]
    · simp
    · simp only [List.append_assoc]
    · simp only [List.append_assoc]

/-- Where the word stands behind blanks, or is defined, the search recognises it. -/
theorem initializerGuard_ne_none {before : Option Char} {cs : List Char}
    (h : Qualified "onlyInitializing" cs ∨ wordStart before = true ∧
      ∃ more, cs = "modifier".toList ++ more ∧ Qualified "onlyInitializing" more) :
    initializerGuard before cs ≠ none := by
  have hdefinition : ∃ more, (if wordStart before then literal "modifier" cs else none).getD cs =
      more ∧ Qualified "onlyInitializing" more := by
    rcases h with hword | ⟨hstart, more, rfl, hword⟩
    · obtain ⟨c, more, rfl, hc⟩ := hword.exists_cons
      refine ⟨c :: more, ?_, hword⟩
      have hmodifier : literal "modifier" (c :: more) = none := by
        rw [Option.eq_none_iff_forall_ne_some]
        intro rest hrest
        obtain ⟨rfl, -⟩ := List.cons.inj (literal_eq_some.mp hrest)
        cases hc
      rw [hmodifier, ite_self, Option.getD_none]
    · exact ⟨more, by rw [if_pos hstart, literal_append, Option.getD_some], hword⟩
  obtain ⟨_, hmore, run, rest, hrun, hend, rfl⟩ := hdefinition
  simp only [initializerGuard, hmore, blanks_word keyword_onlyInitializing hrun, literal_append, hend,
    guard_true, Option.bind_eq_bind, Option.bind_some, Option.pure_def, ne_eq, reduceCtorEq,
    not_false_eq_true]

/-- Guards that stand apart are cut out; before a definition a word may start. -/
theorem cut_guard {before : Option Char} {cs : List Char}
    (h : removedApart id "onlyInitializing" (initializerGuard.pieces before cs) = true) :
    Cut id "onlyInitializing" (initializerGuard.pieces before cs) := by
  refine (takes_guard.induction (motive := fun before _ ps =>
    removedApart id "onlyInitializing" ps = true → Cut id "onlyInitializing" ps ∧
      (startsKept id ps = true → wordStart before = true)) ?_ ?_ ?_ before cs h).1
  · exact fun _ _ => ⟨.nil, fun hkept => by cases hkept⟩
  · intro before c cs hnone ih hapart
    obtain ⟨hcut, hnext⟩ := ih hapart
    refine ⟨.gap (fun hword => ?_) hnext hcut, fun hkept => by cases hkept⟩
    rw [Pattern.text_pieces] at hword
    exact initializerGuard_ne_none (.inl hword) hnone
  · rintro before v t rest _ ⟨-, ⟨rfl, hqualified⟩ | ⟨rfl, hstart, hform⟩⟩ ih hapart
    · simp only [removedApart, id_eq, Bool.false_or, Bool.and_eq_true, Bool.not_eq_true',
        Bool.or_eq_false_iff] at hapart
      obtain ⟨⟨hresumes, hnext⟩, hrest⟩ := hapart
      refine ⟨.removed rfl ?_ hresumes hnext (ih hrest).1, fun hkept => by cases hkept⟩
      rwa [Pattern.text_pieces]
    · obtain ⟨hcut, hnext⟩ := ih hapart
      exact ⟨.kept rfl hform hnext hcut, fun _ => hstart⟩

/-- Where the word is defined wherever it stands behind blanks, only definitions are found. -/
theorem Defined.forall_values {before : Option Char} {cs : List Char}
    (h : Defined "onlyInitializing" before cs) :
    ∀ v ∈ (initializerGuard.pieces before cs).filterMap Piece.value?, v = true := by
  refine takes_guard.induction (motive := fun before cs ps => Defined "onlyInitializing" before cs →
    ∀ v ∈ ps.filterMap Piece.value?, v = true) ?_ ?_ ?_ before cs h
  · exact fun _ _ => by simp
  · intro before c cs hnone ih hdefined
    refine ih fun front tail heq hword => ?_
    obtain ⟨start, run, hrun, hfront, hstart⟩ := hdefined (c :: front) tail (by rw [heq]; rfl) hword
    cases start with
    | nil =>
      refine absurd hnone (initializerGuard_ne_none (.inr ⟨hstart, run ++ tail, ?_, ?_⟩))
      · rw [heq, ← List.cons_append, hfront]
        simp only [List.append_assoc, List.nil_append]
      · exact hword.append hrun
    | cons d start =>
      obtain ⟨rfl, htail⟩ := List.cons.inj hfront
      rw [getLast?_cons_or] at hstart
      exact ⟨start, run, hrun, htail, hstart⟩
  · rintro before v t rest _ ⟨-, ⟨rfl, hqualified⟩ | ⟨rfl, -, hform⟩⟩ ih hdefined
    · obtain ⟨start, run, -, hnil, -⟩ := hdefined [] _ rfl hqualified
      simp at hnil
    · have hbehind := hdefined.behind keyword_onlyInitializing hform
      exact List.forall_mem_cons.mpr ⟨rfl, ih hbehind⟩

/-- Nothing is removed where every hit is kept. -/
theorem keptText_eq_text {α : Type} {kept : α → Bool} {ps : List (Piece α)}
    (h : ∀ v ∈ ps.filterMap Piece.value?, kept v = true) :
    keptText kept ps = ps.flatMap Piece.text := by
  induction ps with
  | nil => rfl
  | cons piece ps ih =>
    cases piece with
    | gap c => rw [keptText_gap, ih h, List.flatMap_cons]; rfl
    | hit v t =>
      obtain ⟨hv, h⟩ := List.forall_mem_cons.mp h
      rw [keptText_kept hv, ih h, List.flatMap_cons]
      rfl

/-- Whether the guards of a text stand apart. -/
def guardsApart (cs : List Char) : Bool :=
  removedApart id "onlyInitializing" (initializerGuard.split cs)

/-- **Guards that stand apart are removed at once.** -/
theorem stripOnlyInitializing_again {cs : List Char} (h : guardsApart cs = true) :
    stripOnlyInitializing (stripOnlyInitializing cs).text =
      ⟨(stripOnlyInitializing cs).text, 0⟩ := by
  have hdefined : Defined "onlyInitializing" none (stripOnlyInitializing cs).text :=
    (cut_guard h).defined keyword_onlyInitializing fun _ => rfl
  generalize (stripOnlyInitializing cs).text = out at hdefined
  have hvalues : ∀ v ∈ initializerGuard.values out, v = true := hdefined.forall_values
  have htext : keptText id (initializerGuard.split out) = out :=
    (keptText_eq_text hvalues).trans (Pattern.text_pieces ..)
  have hcount : (initializerGuard.values out).countP (!·) = 0 :=
    List.countP_eq_zero.mpr fun v hv => by simp [hvalues v hv]
  rw [stripOnlyInitializing, hcount]
  exact congrArg (Transformed.mk · 0) htext

end ContractBuild.Fix
