import ContractBuild.Fix.Transform
import ContractBuild.Proofs.Directives.Search

/-!
# Pragmas for one exact version

- **Forms** (`ExactPragma`): how a pragma for one exact version is written. The search recognises
  exactly these forms, whatever follows them (`exactPragma_eq_some_iff`).
- **Relaxing** (`Relaxed`): a text in which every exact pragma, found from left to right, is
  replaced by one for a caret range. The search gives such a text, and there is no other
  (`relaxed_relaxExactPragma`, `Relaxed.eq`).
- **Nothing is left** (`Relaxed.lacksExact`): neither in a caret pragma nor over its borders there
  is an exact pragma, because only the first letter of one is a `p`.

Main statement: `relaxExactPragma_exact`.
-/

namespace ContractBuild

open Text Solidity

namespace Solidity

/-! ## Forms -/

/-- Three numbers with points between them. -/
inductive IsVersion : List Char → Prop where
  | numbers {major minor patch : List Char} (hmajor : major ≠ [] ∧ ∀ c ∈ major, isDigit c = true)
      (hminor : minor ≠ [] ∧ ∀ c ∈ minor, isDigit c = true)
      (hpatch : patch ≠ [] ∧ ∀ c ∈ patch, isDigit c = true) :
      IsVersion (major ++ (".".toList ++ (minor ++ (".".toList ++ patch))))

/-- `ExactPragma t version`: `t` is a pragma for one exact version, with or without an equals sign
before the version. -/
inductive ExactPragma : List Char → List Char → Prop where
  | form {s₁ s₂ equals s₃ version s₄ : List Char}
      (h₁ : s₁ ≠ [] ∧ ∀ c ∈ s₁, isSpace c = true) (h₂ : s₂ ≠ [] ∧ ∀ c ∈ s₂, isSpace c = true)
      (hequals : equals = [] ∨ equals = "=".toList) (h₃ : ∀ c ∈ s₃, isSpace c = true)
      (hversion : IsVersion version) (h₄ : ∀ c ∈ s₄, isSpace c = true) :
      ExactPragma ("pragma".toList ++ (s₁ ++ ("solidity".toList ++ (s₂ ++ (equals ++
        (s₃ ++ (version ++ (s₄ ++ ";".toList)))))))) version

/-- What is taken when a version was read. -/
theorem take_version (major minor patch rest : List Char) :
    let cs := major ++ (".".toList ++ (minor ++ (".".toList ++ (patch ++ rest))))
    cs.take (cs.length - rest.length) =
      major ++ (".".toList ++ (minor ++ (".".toList ++ patch))) := by
  intro cs
  have htaken : ∀ v : List Char, (v ++ rest).take ((v ++ rest).length - rest.length) = v := by simp
  have hcs : cs = major ++ (".".toList ++ (minor ++ (".".toList ++ patch))) ++ rest := by simp [cs]
  rw [hcs, htaken]

namespace IsVersion

variable {version : List Char}

/-- A version begins with a digit. -/
theorem exists_cons (h : IsVersion version) :
    ∃ c cs, version = c :: cs ∧ isDigit c = true := by
  obtain @⟨major, minor, patch, ⟨hne, hmajor⟩, -, -⟩ := h
  obtain ⟨c, major, rfl⟩ := List.exists_cons_of_ne_nil hne
  exact ⟨c, _, rfl, hmajor c (List.mem_cons_self ..)⟩

/-- A version is of digits and points. -/
theorem isDigit_or_point (h : IsVersion version) : ∀ c ∈ version, isDigit c = true ∨ c = '.' := by
  obtain @⟨major, minor, patch, ⟨-, hmajor⟩, ⟨-, hminor⟩, ⟨-, hpatch⟩⟩ := h
  have hpoint : ∀ c ∈ ".".toList, isDigit c = true ∨ c = '.' := by simp
  simp only [List.forall_mem_append]
  exact ⟨fun c hc => .inl (hmajor c hc), hpoint, fun c hc => .inl (hminor c hc), hpoint,
    fun c hc => .inl (hpatch c hc)⟩

theorem p_notMem (h : IsVersion version) : 'p' ∉ version := by
  intro hp
  rcases h.isDigit_or_point _ hp with hp | hp
  · exact absurd hp (by decide)
  · cases hp

/-- Neither a space nor an equals sign begins a version. -/
theorem head?_append (h : IsVersion version) (rest : List Char) :
    (version ++ rest).head?.any isSpace = false ∧ literal "=" (version ++ rest) = none := by
  obtain ⟨c, cs, rfl, hc⟩ := h.exists_cons
  constructor
  · show isSpace c = false
    by_contra hspace
    rw [isDigit_of_isSpace (by simpa using hspace)] at hc
    cases hc
  · rw [Option.eq_none_iff_forall_ne_some]
    intro more hmore
    obtain ⟨rfl, -⟩ := List.cons.inj (literal_eq_some.mp hmore)
    cases hc

/-- A version is read up to a character that is no digit. -/
theorem versionNumber_append (h : IsVersion version) {rest : List Char}
    (hrest : rest.head?.any isDigit = false) :
    versionNumber (version ++ rest) = some (version, rest) := by
  obtain @⟨major, minor, patch, hmajor, hminor, hpatch⟩ := h
  have hpoint : ∀ cs : List Char, (".".toList ++ cs).head?.any isDigit = false := fun _ => rfl
  simp only [versionNumber, List.append_assoc, digits_append hmajor.1 hmajor.2 (hpoint _),
    digits_append hminor.1 hminor.2 (hpoint _), digits_append hpatch.1 hpatch.2 hrest,
    literal_append, Option.bind_eq_bind, Option.bind_some, Option.pure_def]
  rw [take_version]

end IsVersion

/-- What is read as a version is one. -/
theorem isVersion_of_versionNumber {cs version rest : List Char}
    (h : versionNumber cs = some (version, rest)) : cs = version ++ rest ∧ IsVersion version := by
  simp only [versionNumber, Option.bind_eq_bind, Option.bind_eq_some_iff, Prod.exists,
    literal_eq_some, Option.pure_def, Option.some.injEq, Prod.mk.injEq] at h
  obtain ⟨major, _, hmajor, _, rfl, minor, _, hminor, _, rfl, patch, last, hpatch, rfl, rfl⟩ := h
  obtain ⟨rfl, hdigits₃⟩ := digits_eq_some hpatch
  obtain ⟨rfl, hdigits₂⟩ := digits_eq_some hminor
  obtain ⟨rfl, hdigits₁⟩ := digits_eq_some hmajor
  rw [take_version]
  exact ⟨by simp, .numbers hdigits₁ hdigits₂ hdigits₃⟩

/-- What stands between the words of an exact pragma and its version is skipped. -/
theorem spaces_range {s₂ equals s₃ version : List Char}
    (h₂ : s₂ ≠ [] ∧ ∀ c ∈ s₂, isSpace c = true) (hequals : equals = [] ∨ equals = "=".toList)
    (h₃ : ∀ c ∈ s₃, isSpace c = true) (hversion : IsVersion version) (rest : List Char) :
    ∃ range, spaces (s₂ ++ (equals ++ (s₃ ++ (version ++ rest)))) = some range ∧
      trimStart ((literal "=" range).getD range) = version ++ rest := by
  obtain ⟨hspace, hliteral⟩ := hversion.head?_append rest
  rcases hequals with rfl | rfl
  · refine ⟨version ++ rest, ?_, ?_⟩
    · rw [List.nil_append, ← List.append_assoc]
      refine spaces_append (by simp [h₂.1]) ?_ hspace
      exact List.forall_mem_append.mpr ⟨h₂.2, h₃⟩
    · rw [hliteral]
      rw [Option.getD_none, trimStart, ← List.nil_append (version ++ rest)]
      exact dropWhile_append_run (by simp) hspace
  · refine ⟨_, spaces_append h₂.1 h₂.2 rfl, ?_⟩
    rw [literal_append]
    exact dropWhile_append_run h₃ hspace

/-- An exact pragma is recognised, whatever follows. -/
theorem ExactPragma.exactPragma_append {t version : List Char} (h : ExactPragma t version)
    (before : Option Char) (rest : List Char) :
    exactPragma before (t ++ rest) = some (.upTo version (t ++ rest) rest) := by
  obtain @⟨s₁, s₂, equals, s₃, version, s₄, h₁, h₂, hequals, h₃, hversion, h₄⟩ := h
  obtain ⟨range, hrange, hskip⟩ :=
    spaces_range h₂ hequals h₃ hversion (s₄ ++ (";".toList ++ rest))
  have hbehind : (s₄ ++ (";".toList ++ rest)).head?.any isDigit = false := by
    cases s₄ with
    | nil => rfl
    | cons c s₄ => exact isDigit_of_isSpace (h₄ c (List.mem_cons_self ..))
  have hwords : ∀ cs, spaces (s₁ ++ ("solidity".toList ++ cs)) = some ("solidity".toList ++ cs) :=
    fun _ => spaces_append h₁.1 h₁.2 rfl
  have hend : literal ";" (trimStart (s₄ ++ (";".toList ++ rest))) = some rest := by
    rw [trimStart, dropWhile_append_run h₄ rfl, literal_append]
  simp only [exactPragma, pragmaHead, List.append_assoc, literal_append, hwords, hrange, hskip,
    hversion.versionNumber_append hbehind, hend, Option.bind_eq_bind, Option.bind_some,
    Option.pure_def]

/-- What follows the words of an exact pragma and a space, up to its semicolon. -/
theorem eq_append_of_range {range version behind rest : List Char}
    (hversion : versionNumber (trimStart ((literal "=" range).getD range)) = some (version, behind))
    (hsemi : trimStart behind = ";".toList ++ rest) :
    IsVersion version ∧ ∃ equals s₃ s₄, (equals = [] ∨ equals = "=".toList) ∧
      (∀ c ∈ s₃, isSpace c = true) ∧ (∀ c ∈ s₄, isSpace c = true) ∧
      range = equals ++ (s₃ ++ (version ++ (s₄ ++ (";".toList ++ rest)))) := by
  obtain ⟨hfront, hversion⟩ := isVersion_of_versionNumber hversion
  obtain ⟨s₃, hs₃, h₃⟩ := exists_eq_append_dropWhile isSpace ((literal "=" range).getD range)
  obtain ⟨s₄, hs₄, h₄⟩ := exists_eq_append_dropWhile isSpace behind
  rw [← trimStart, hsemi] at hs₄
  rw [← trimStart, hfront, hs₄] at hs₃
  refine ⟨hversion, ?_⟩
  cases hl : literal "=" range with
  | none =>
    rw [hl, Option.getD_none] at hs₃
    exact ⟨[], s₃, s₄, .inl rfl, h₃, h₄, hs₃⟩
  | some more =>
    rw [hl, Option.getD_some] at hs₃
    refine ⟨_, s₃, s₄, .inr rfl, h₃, h₄, ?_⟩
    rw [← hs₃]
    exact literal_eq_some.mp hl

/-- What is recognised is an exact pragma. -/
theorem takes_exactForm : exactPragma.Takes fun _ version t _ => ExactPragma t version := by
  intro before cs h hh
  simp only [exactPragma, pragmaHead, Option.bind_eq_bind, Option.bind_eq_some_iff, Prod.exists,
    literal_eq_some, Option.pure_def, Option.some.injEq] at hh
  obtain ⟨_, ⟨_, rfl, _, hspaces₁, rfl⟩, range, hspaces₂, version, _, hread, rest, hsemi, rfl⟩ := hh
  obtain ⟨s₁, h₁, rfl⟩ := exists_of_spaces hspaces₁
  obtain ⟨s₂, h₂, rfl⟩ := exists_of_spaces hspaces₂
  obtain ⟨hversion, equals, s₃, s₄, hequals, h₃, h₄, rfl⟩ := eq_append_of_range hread hsemi
  have hform := ExactPragma.form h₁ h₂ hequals h₃ hversion h₄
  refine ⟨_, rest, ?_, ?_, Hit.size_upTo_of_eq _ ?_, hform⟩
  · simp only [List.append_assoc]
  · simp
  · simp only [List.append_assoc]

/-- **The search recognises exactly the exact pragmas**, whatever follows them. -/
theorem exactPragma_eq_some_iff {before : Option Char} {cs : List Char} {h : Hit (List Char)} :
    exactPragma before cs = some h ↔
      ∃ t rest, cs = t ++ rest ∧ ExactPragma t h.value ∧ h.size = t.length := by
  constructor
  · intro hh
    obtain ⟨t, rest, hcs, -, hsize, hform⟩ := takes_exactForm _ _ _ hh
    exact ⟨t, rest, hcs, hform, hsize⟩
  · rintro ⟨t, rest, rfl, hform, hsize⟩
    rw [hform.exactPragma_append, Option.some.injEq]
    cases h
    simp only [Hit.upTo, Hit.mk.injEq, List.length_append, true_and] at hsize ⊢
    omega

/-- `StartsExact cs`: an exact pragma stands at the front of `cs`. -/
def StartsExact (cs : List Char) : Prop := ∃ t version rest, cs = t ++ rest ∧ ExactPragma t version

theorem exactPragma_eq_none_iff {before : Option Char} {cs : List Char} :
    exactPragma before cs = none ↔ ¬ StartsExact cs := by
  constructor
  · rintro hnone ⟨t, version, rest, rfl, hform⟩
    rw [hform.exactPragma_append] at hnone
    cases hnone
  · intro hstarts
    cases hh : exactPragma before cs with
    | none => rfl
    | some h =>
      obtain ⟨t, rest, hcs, hform, -⟩ := exactPragma_eq_some_iff.mp hh
      exact absurd ⟨t, h.value, rest, hcs, hform⟩ hstarts

/-- `LacksExact cs`: an exact pragma stands nowhere in `cs`. -/
def LacksExact (cs : List Char) : Prop := ∀ tail, tail <:+ cs → ¬ StartsExact tail

theorem ExactPragma.isVersion {t version : List Char} (h : ExactPragma t version) :
    IsVersion version := by
  cases h
  assumption

/-- The first letter of an exact pragma is the only `p` in it. -/
theorem ExactPragma.exists_cons {t version : List Char} (h : ExactPragma t version) :
    ∃ more, t = 'p' :: more ∧ 'p' ∉ more := by
  obtain @⟨s₁, s₂, equals, s₃, version, s₄, ⟨-, h₁⟩, ⟨-, h₂⟩, hequals, h₃, hversion, h₄⟩ := h
  have hspaces {s : List Char} (hs : ∀ c ∈ s, isSpace c = true) : 'p' ∉ s := fun hp =>
    absurd (hs _ hp) (by decide)
  have hequals : 'p' ∉ equals := by rcases hequals with rfl | rfl <;> decide
  refine ⟨"ragma".toList ++ _, rfl, ?_⟩
  simp only [List.mem_append, not_or]
  exact ⟨by decide, hspaces h₁, by decide, hspaces h₂, hequals, hspaces h₃, hversion.p_notMem,
    hspaces h₄, by decide⟩

/-- An exact pragma that starts before a `p` ends before it. -/
theorem StartsExact.of_append {front rest : List Char} (hne : front ≠ [])
    (h : StartsExact (front ++ 'p' :: rest)) (more : List Char) : StartsExact (front ++ more) := by
  obtain ⟨t, version, behind, heq, hform⟩ := h
  obtain ⟨letters, rfl, hp⟩ := hform.exists_cons
  obtain ⟨c, front, rfl⟩ := List.exists_cons_of_ne_nil hne
  obtain ⟨rfl, hmore⟩ := List.cons.inj heq
  have hletters : letters <+: front ++ 'p' :: rest := ⟨behind, hmore.symm⟩
  obtain ⟨last, rfl⟩ := (front_or_mem hletters).resolve_right hp
  exact ⟨_, version, last ++ more, by simp, hform⟩

end Solidity

/-! ## Relaxing -/

namespace Fix

/-- The pragma for the caret range of a version. -/
def caretPragma (version : List Char) : List Char :=
  "pragma solidity ^".toList ++ version ++ ";".toList

/-- `Relaxed cs out n`: `out` is `cs` with `n` exact pragmas replaced by caret pragmas for the same
versions. Each is the first one behind the one before it, and no other is left. -/
inductive Relaxed : List Char → List Char → Nat → Prop where
  | rest {cs : List Char} (h : LacksExact cs) : Relaxed cs cs 0
  | pragma {gap t version cs out : List Char} {n : Nat}
      (hgap : ∀ tail, tail <:+ gap → tail ≠ [] → ¬ StartsExact (tail ++ (t ++ cs)))
      (ht : ExactPragma t version) (hrest : Relaxed cs out n) :
      Relaxed (gap ++ (t ++ cs)) (gap ++ (caretPragma version ++ out)) (n + 1)

/-- A character at which no exact pragma starts is kept. -/
theorem Relaxed.cons {c : Char} {cs out : List Char} {n : Nat} (hc : ¬ StartsExact (c :: cs))
    (h : Relaxed cs out n) : Relaxed (c :: cs) (c :: out) n := by
  cases h with
  | rest h =>
    refine .rest fun tail htail => ?_
    rcases List.suffix_cons_iff.mp htail with rfl | htail
    · exact hc
    · exact h tail htail
  | @pragma gap t version cs out n hgap ht hrest =>
    refine @Relaxed.pragma (c :: gap) _ _ _ _ _ (fun tail htail hne => ?_) ht hrest
    rcases List.suffix_cons_iff.mp htail with rfl | htail
    · exact hc
    · exact hgap tail htail hne

/-- The search relaxes a text. -/
theorem relaxed_relaxExactPragma (cs : List Char) :
    Relaxed cs (relaxExactPragma cs).text (relaxExactPragma cs).occurrences := by
  refine takes_exactForm.induction (motive := fun _ cs pieces => Relaxed cs
    (pieces.flatMap (Piece.replaced fun version _ => caretPragma version))
    (pieces.filterMap Piece.value?).length) ?_ ?_ ?_ none cs
  · refine fun _ => .rest fun tail htail => ?_
    rintro ⟨t, version, rest, rfl, hform⟩
    obtain ⟨more, rfl, -⟩ := hform.exists_cons
    cases List.suffix_nil.mp htail
  · intro before c cs hnone ih
    exact ih.cons (exactPragma_eq_none_iff.mp hnone)
  · intro before version t rest _ hform ih
    exact @Relaxed.pragma [] _ _ _ _ _ (by simp) hform ih

/-- The search passes over a stretch in which no exact pragma starts. -/
theorem throughout_of_not_startsExact {front rest : List Char} (before : Option Char)
    (h : ∀ tail, tail <:+ front → tail ≠ [] → ¬ StartsExact (tail ++ rest)) :
    Throughout (fun b cs => exactPragma b cs = none) before front rest :=
  (throughout_of_suffix (R := fun cs => ¬ StartsExact cs) h).mono
    fun _ _ => exactPragma_eq_none_iff.mpr

/-- No other text is a relaxed one. -/
theorem Relaxed.eq {cs out : List Char} {n : Nat} (h : Relaxed cs out n) :
    relaxExactPragma cs = ⟨out, n⟩ := by
  suffices hpieces : ∀ before, let pieces := exactPragma.pieces before cs
      pieces.flatMap (Piece.replaced fun version _ => caretPragma version) = out ∧
        (pieces.filterMap Piece.value?).length = n by
    obtain ⟨hout, hn⟩ := hpieces none
    rw [← hout, ← hn]
    rfl
  induction h with
  | @rest cs h =>
    intro before
    have hgaps : exactPragma.pieces before cs = cs.map .gap :=
      Pattern.pieces_of_throughout_nil (throughout_of_not_startsExact before fun tail htail _ => by
        simpa using h tail htail)
    rw [hgaps]
    exact ⟨flatMap_replaced_gaps _ cs, congrArg List.length (filterMap_value?_gaps cs)⟩
  | @pragma gap t version cs out n hgap ht hrest ih =>
    intro before
    obtain ⟨more, rfl, -⟩ := ht.exists_cons
    have hhit := Pattern.pieces_of_hit (ht.exactPragma_append (gap.getLast?.or before) cs)
      (List.cons_ne_nil 'p' more) (Hit.size_upTo ..)
    obtain ⟨hout, hn⟩ := ih ('p' :: more).getLast?
    rw [Pattern.pieces_of_throughout (throughout_of_not_startsExact before hgap), hhit]
    simp only [List.flatMap_append, List.flatMap_cons, flatMap_replaced_gaps, Piece.replaced,
      List.filterMap_append, filterMap_value?_gaps, List.filterMap_cons, Piece.value?,
      List.length_cons, List.nil_append, Hit.value_upTo, hout, hn, and_self]

/-! ## Nothing is left -/

/-- What ends a text of two stretches ends the second or starts in the first. -/
theorem suffix_append_cases {tail front rest : List Char} (h : tail <:+ front ++ rest) :
    tail <:+ rest ∨ ∃ last, last <:+ front ∧ last ≠ [] ∧ tail = last ++ rest := by
  obtain ⟨start, heq⟩ := h
  rcases List.append_eq_append_iff.mp heq with ⟨last, rfl, rfl⟩ | ⟨last, rfl, hrest⟩
  · by_cases hlast : last = []
    · exact .inl (by simp [hlast])
    · exact .inr ⟨last, List.suffix_append .., hlast, rfl⟩
  · exact .inl ⟨last, hrest.symm⟩

theorem not_startsExact_caretPragma (version out : List Char) :
    ¬ StartsExact (caretPragma version ++ out) :=
  (@exactPragma_eq_none_iff none _).mp rfl

/-- No exact pragma starts in a caret pragma. -/
theorem not_startsExact_of_suffix {version tail : List Char} (hversion : IsVersion version)
    (htail : tail <:+ caretPragma version) (hne : tail ≠ []) (out : List Char) :
    ¬ StartsExact (tail ++ out) := by
  rcases List.suffix_cons_iff.mp htail with rfl | htail
  · exact not_startsExact_caretPragma version out
  · rintro ⟨t, _, behind, heq, hform⟩
    obtain ⟨letters, rfl, -⟩ := hform.exists_cons
    obtain ⟨c, tail, rfl⟩ := List.exists_cons_of_ne_nil hne
    obtain ⟨rfl, -⟩ := List.cons.inj heq
    have hp : 'p' ∈ "ragma solidity ^".toList ++ version ++ ";".toList :=
      htail.subset (List.mem_cons_self ..)
    simp only [List.mem_append, hversion.p_notMem, or_false] at hp
    rcases hp with hp | hp <;> exact absurd hp (by decide)

/-- A relaxed text has no exact pragma. -/
theorem Relaxed.lacksExact {cs out : List Char} {n : Nat} (h : Relaxed cs out n) :
    LacksExact out := by
  induction h with
  | rest h => exact h
  | @pragma gap t version cs out n hgap ht hrest ih =>
    intro tail htail
    rcases suffix_append_cases htail with htail | ⟨last, hlast, hne, rfl⟩
    · rcases suffix_append_cases htail with htail | ⟨last, hlast, hne, rfl⟩
      · exact ih tail htail
      · exact not_startsExact_of_suffix ht.isVersion hlast hne out
    · intro hstarts
      exact hgap last hlast hne (StartsExact.of_append hne hstarts _)

theorem Relaxed.eq_of_zero {cs out : List Char} (h : Relaxed cs out 0) : out = cs := by
  cases h
  rfl

/-- **Relaxing is exact and final.** The text becomes the one in which each exact pragma, found from
left to right, is replaced by the caret pragma for its version, and nothing else is changed. The new
text has no exact pragma, so relaxing it again finds none and gives the same text. None is found
exactly if the text stays the same. -/
theorem relaxExactPragma_exact (cs : List Char) :
    (∀ out n, Relaxed cs out n ↔ relaxExactPragma cs = ⟨out, n⟩) ∧
    LacksExact (relaxExactPragma cs).text ∧
    relaxExactPragma (relaxExactPragma cs).text = ⟨(relaxExactPragma cs).text, 0⟩ ∧
    ((relaxExactPragma cs).occurrences = 0 ↔ (relaxExactPragma cs).text = cs) := by
  have hrelaxed := relaxed_relaxExactPragma cs
  have hlacks := hrelaxed.lacksExact
  refine ⟨fun out n => ⟨Relaxed.eq, ?_⟩, hlacks, (Relaxed.rest hlacks).eq, ?_, ?_⟩
  · intro heq
    rwa [heq] at hrelaxed
  · intro hnone
    rw [hnone] at hrelaxed
    exact hrelaxed.eq_of_zero
  · intro hsame
    rw [hsame] at hlacks
    rw [(Relaxed.rest hlacks).eq]

end Fix

end ContractBuild
