import ContractBuild.Fix.Rule
import ContractBuild.Proofs.Fix.ExactPragma
import ContractBuild.Proofs.Fix.Header
import ContractBuild.Proofs.Fix.LicenseLines
import ContractBuild.Proofs.Fix.Potential
import ContractBuild.Proofs.Fix.Qualifiers

/-!
# Every rule lowers the potential

- **Rules that add text** settle a character and keep the weight (`improves_markInternalVirtual`,
  `improves_relaxExactPragma`).
- **Rules that remove text** make it lighter: what they remove is not light
  (`takes_overrideQualifier`, `takes_initializerGuard`, `takes_licenseComment`).
- **Repairs** (`potential_fixClasses`): a repair that changes anything lowers the potential. So no
  repair that changed something gives the text it started from (`isChanged_fixClasses`).
-/

namespace ContractBuild.Fix

open Text Solidity

/-! ## Marking internal functions -/

/-- An `internal` in a header without the word `virtual` is not marked. -/
theorem not_isMarked_of_not_hasWord {front post rest : List Char}
    (hvirtual : ¬ HasWord "virtual" (front ++ ("internal".toList ++ post)))
    (hrest : ∀ c, rest.head? = some c → EndsHeader c) :
    isMarked ("al".toList ++ (post ++ rest)) = false := by
  rw [← Bool.not_eq_true]
  intro hmarked
  obtain ⟨more, heq, hend⟩ := isMarked_iff.mp hmarked
  have heq : post ++ rest = " virtual".toList ++ more := List.append_cancel_left heq
  -- the header does not end inside the word
  have hpost : ∃ b, post = " virtual".toList ++ b ∧ more = b ++ rest := by
    rcases List.append_eq_append_iff.mp heq with ⟨a, ha, hmore⟩ | hb
    · cases a with
      | nil => exact ⟨[], by simpa using ha.symm, hmore.symm⟩
      | cons c a =>
        have hc : c ∈ " virtual".toList := ha ▸ (by simp)
        rw [hmore] at hrest
        rcases hrest c rfl with rfl | rfl <;> exact absurd hc (by decide)
    · exact hb
  obtain ⟨b, rfl, rfl⟩ := hpost
  refine hvirtual ⟨front ++ "internal ".toList, b, ?_, ?_, ?_⟩
  · rw [List.append_assoc]
    rfl
  · rw [List.getLast?_append_of_ne_nil _ (by decide)]
    rfl
  · cases b with
    | nil => rfl
    | cons c b => exact hend

theorem loose_intern (cs : List Char) :
    loose ("intern".toList ++ cs) = 1 + (if isMarked cs then 0 else 1) + loose cs := by
  have hfirst : isMarked ('t' :: 'e' :: 'r' :: 'n' :: cs) = false := rfl
  cases hlast : isMarked cs with
  | false =>
    simp [loose, isLoose, hfirst, hlast]
    omega
  | true => simp [loose, isLoose, hfirst, hlast]

/-- A mark settles the last `n` of the word before it. -/
theorem improves_internal {post rest r' : List Char} (hpost : wordEnd (post ++ r') = true)
    (hmarked : isMarked ("al".toList ++ (post ++ rest)) = false) (h : Improves rest r') :
    Improves ("internal".toList ++ (post ++ rest)) ("internal virtual".toList ++ (post ++ r')) where
  head := rfl
  keeps := .of_solid (by decide +kernel) _ _
  weight := by
    have hw : Fix.weight "internal virtual".toList = Fix.weight "internal".toList := by
      decide +kernel
    simp only [weight_append, h.weight, hw]
  loose := by
    have hal : ∀ c ∈ "al".toList, isHeavy c = false :=
      weight_eq_zero.mp (by decide +kernel)
    have hmark : ∀ c ∈ "al virtual".toList, isHeavy c = false :=
      weight_eq_zero.mp (by decide +kernel)
    have hnew : isMarked ("al virtual".toList ++ (post ++ r')) = true :=
      isMarked_iff.mpr ⟨_, rfl, hpost⟩
    refine .inr ?_
    calc Fix.loose ("intern".toList ++ ("al virtual".toList ++ (post ++ r')))
        = 1 + Fix.loose (post ++ r') := by
          rw [loose_intern, if_pos hnew, loose_append_of_light hmark]
      _ ≤ 1 + Fix.loose (post ++ rest) := Nat.add_le_add_left (h.append_left post).loose_le 1
      _ < 1 + 1 + Fix.loose (post ++ rest) := by omega
      _ = Fix.loose ("intern".toList ++ ("al".toList ++ (post ++ rest))) := by
          rw [loose_intern, hmarked, if_neg Bool.false_ne_true, loose_append_of_light hal]

theorem improves_addVirtual {header rest r' : List Char}
    (hrest : ∀ c, rest.head? = some c → EndsHeader c) (h : Improves rest r') :
    Improves (header ++ rest) (addVirtual header ++ r') := by
  cases hlacks : lacksVirtual header with
  | false =>
    rw [addVirtual_of_not_lacksVirtual hlacks]
    exact h.append_left header
  | true =>
    have hvirtual := (lacksVirtual_iff.mp hlacks).2
    obtain ⟨front, post, rfl, -, hpost, hnew, -⟩ := exists_of_lacksVirtual hlacks
    have hend : wordEnd (post ++ r') = true :=
      wordEnd_behind hpost fun c hc => hrest c (h.head ▸ hc)
    have hmarked := not_isMarked_of_not_hasWord hvirtual hrest
    rw [hnew]
    simpa only [List.append_assoc] using (improves_internal hend hmarked h).append_left front

theorem improves_markInternalVirtual (cs : List Char) :
    Improves cs (markInternalVirtual cs).text :=
  improves_replace takes_header (fun _ _ _ _ hheader _ h => improves_addVirtual hheader.2.2 h) cs

/-! ## Relaxing exact pragmas -/

theorem not_isHeavy_of_isSpace {c : Char} (h : isSpace c = true) : isHeavy c = false := by
  rw [← Bool.not_eq_true]
  intro hheavy
  simp only [isHeavy, Bool.or_eq_true, beq_iff_eq] at hheavy
  rcases hheavy with (rfl | rfl) | rfl <;> exact absurd h (by decide)

theorem not_isHeavy_of_isDigit {c : Char} (h : isDigit c = true) : isHeavy c = false := by
  rw [← Bool.not_eq_true]
  intro hheavy
  simp only [isHeavy, Bool.or_eq_true, beq_iff_eq] at hheavy
  rcases hheavy with (rfl | rfl) | rfl <;> exact absurd h (by decide)

/-- No character of a version is heavy. -/
theorem not_isHeavy_of_isVersion {version : List Char} (h : IsVersion version) :
    ∀ c ∈ version, isHeavy c = false := by
  intro c hc
  rcases h.isDigit_or_point c hc with hdigit | rfl
  · exact not_isHeavy_of_isDigit hdigit
  · rfl

/-- No caret stands between the words of an exact pragma and its version. -/
theorem not_isRelaxed_range {s₂ equals s₃ version : List Char} (h₂ : ∀ c ∈ s₂, isSpace c = true)
    (hequals : equals = [] ∨ equals = "=".toList) (h₃ : ∀ c ∈ s₃, isSpace c = true)
    (hversion : IsVersion version) (rest : List Char) :
    isRelaxed (s₂ ++ (equals ++ (s₃ ++ (version ++ rest)))) = false := by
  rcases hequals with rfl | rfl
  · have hspace : ∀ c ∈ s₂ ++ s₃, isSpace c = true := List.forall_mem_append.mpr ⟨h₂, h₃⟩
    rw [isRelaxed, trimStart, List.nil_append, ← List.append_assoc,
      dropWhile_append_run hspace (hversion.head?_append rest).1, beq_eq_false_iff_ne]
    obtain ⟨c, cs, rfl, hc⟩ := hversion.exists_cons
    rintro ⟨⟩
    cases hc
  · rw [isRelaxed, trimStart, dropWhile_append_run h₂ rfl]
    rfl

/-- An exact pragma: no heavy character but the `y` of its second word, and no caret behind that. -/
theorem exists_of_exactPragma {t version : List Char} (h : ExactPragma t version) : ∃ a u,
    t = "pragma".toList ++ (a ++ 'y' :: u) ∧ (∀ c ∈ a, isHeavy c = false) ∧
    (∀ c ∈ u, isHeavy c = false) ∧ ∀ rest, isRelaxed (u ++ rest) = false := by
  obtain @⟨s₁, s₂, equals, s₃, version, s₄, h₁, h₂, hequals, h₃, hversion, h₄⟩ := h
  have hlight {s : List Char} (hs : ∀ c ∈ s, isSpace c = true) : ∀ c ∈ s, isHeavy c = false :=
    fun c hc => not_isHeavy_of_isSpace (hs c hc)
  have hequals' : ∀ c ∈ equals, isHeavy c = false := by
    rcases hequals with rfl | rfl <;> exact weight_eq_zero.mp (by decide)
  refine ⟨s₁ ++ "solidit".toList, s₂ ++ (equals ++ (s₃ ++ (version ++ (s₄ ++ ";".toList)))),
    by simp, ?_, ?_, fun rest => ?_⟩
  · exact List.forall_mem_append.mpr ⟨hlight h₁.2, weight_eq_zero.mp (by decide)⟩
  · simp only [List.forall_mem_append]
    exact ⟨hlight h₂.2, hequals', hlight h₃, not_isHeavy_of_isVersion hversion, hlight h₄,
      weight_eq_zero.mp (by decide)⟩
  · simp only [List.append_assoc]
    exact not_isRelaxed_range h₂.2 hequals h₃ hversion _

/-- A caret settles the `y` before it. -/
theorem improves_pragma {a u version rest r' : List Char} (ha : ∀ c ∈ a, isHeavy c = false)
    (hu : ∀ c ∈ u, isHeavy c = false) (hcaret : isRelaxed (u ++ rest) = false)
    (hversion : ∀ c ∈ version, isHeavy c = false) (h : Improves rest r') :
    Improves ("pragma".toList ++ (a ++ 'y' :: u) ++ rest)
      ("pragma solidity ^".toList ++ version ++ [';'] ++ r') := by
  have hpragma : ∀ c ∈ "pragma".toList, isHeavy c = false := weight_eq_zero.mp (by decide)
  have hfront : ∀ c ∈ "pragma solidit".toList, isHeavy c = false := weight_eq_zero.mp (by decide)
  have hback : ∀ c ∈ " ^".toList ++ version ++ [';'], isHeavy c = false := by
    simp only [List.forall_mem_append]
    exact ⟨⟨weight_eq_zero.mp (by decide), hversion⟩, weight_eq_zero.mp (by decide)⟩
  have hold : "pragma".toList ++ (a ++ 'y' :: u) ++ rest =
      "pragma".toList ++ (a ++ 'y' :: (u ++ rest)) := by simp
  have hnew : "pragma solidity ^".toList ++ version ++ [';'] ++ r' =
      "pragma solidit".toList ++ 'y' :: (" ^".toList ++ version ++ [';'] ++ r') := by simp
  rw [hold, hnew]
  have hloose : isLoose 'y' (u ++ rest) = true := by simp [isLoose, hcaret]
  have hsettled : isLoose 'y' (" ^".toList ++ version ++ [';'] ++ r') = false := by
    have hrelaxed : isRelaxed (" ^".toList ++ version ++ [';'] ++ r') = true := rfl
    rw [isLoose, hrelaxed]
    rfl
  refine ⟨rfl, .of_solid (by decide +kernel) _ _, ?_, .inr ?_⟩
  · rw [weight_append_of_light hfront, weight_append_of_light hpragma, weight_append_of_light ha,
      weight_cons, weight_cons, weight_append_of_light hback, weight_append_of_light hu, h.weight]
  · have hle := h.loose_le
    rw [loose_append_of_light hfront, loose_append_of_light hpragma, loose_append_of_light ha,
      loose, loose, loose_append_of_light hback, loose_append_of_light hu, hloose, hsettled,
      if_pos rfl, if_neg Bool.false_ne_true]
    omega

theorem improves_relaxExactPragma (cs : List Char) : Improves cs (relaxExactPragma cs).text := by
  refine improves_replace takes_exactForm ?_ cs
  rintro _ version _ rest hform r' h
  have hversion := not_isHeavy_of_isVersion hform.isVersion
  obtain ⟨a, u, rfl, ha, hu, hcaret⟩ := exists_of_exactPragma hform
  exact improves_pragma ha hu (hcaret rest) hversion h

/-! ## Removing qualifiers, guards and licence lines -/

/-- A stretch with a word in it that is not light is not light. -/
theorem weight_pos_of_within {w t : List Char} (hw : 0 < weight w) (h : w <:+: t) :
    0 < weight t := by
  obtain ⟨front, rest, rfl⟩ := h
  rw [weight_append, weight_append]
  omega

theorem takes_overrideQualifier : overrideQualifier.Takes fun _ _ t _ => 0 < weight t :=
  takes_override.mono fun _ _ _ _ h => weight_pos_of_within (by decide +kernel) h.1

theorem takes_initializerGuard : initializerGuard.Takes fun _ _ t _ => 0 < weight t :=
  takes_guard.mono fun _ _ _ _ h => weight_pos_of_within (by decide +kernel) h.1

theorem takes_licenseComment : licenseComment.Takes fun _ _ t _ => 0 < weight t :=
  takes_licenseLine.mono fun _ _ _ _ h => weight_pos_of_within (by decide +kernel) h.2.has_words

/-! ## Repairs -/

/-- A rule leaves a text as it is or lowers its potential. -/
theorem potential_transform (rule : FixRule) {cs : List Char} (h : (rule.transform cs).text ≠ cs) :
    potential (rule.transform cs).text < potential cs := by
  cases rule with
  | stripOverride => exact (lightens_erasePieces takes_overrideQualifier none cs).potential_lt h
  | markInternalVirtual => exact (improves_markInternalVirtual cs).potential_lt h
  | stripOnlyInitializing =>
    refine Lightens.potential_lt (lightens_replacePieces takes_initializerGuard ?_ none cs) h
    intro before definition t rest ht
    cases definition with
    | false => exact .inr ht
    | true => exact .inl rfl
  | relaxExactPragma => exact (improves_relaxExactPragma cs).potential_lt h
  | dedupeLicense => exact (lightens_keepFirst takes_licenseComment none cs).potential_lt h

end ContractBuild.Fix

namespace ContractBuild

open ContractBuild.Fix

namespace FixOutcome

/-- The potential of the text of an outcome. -/
def potential (o : FixOutcome) : Nat := Fix.potential o.text.toList

/-- `o.Repairs o'`: `o'` is `o`, or it has more changes and a smaller potential. -/
def Repairs (o o' : FixOutcome) : Prop :=
  o' = o ∨ (o.changes.length < o'.changes.length ∧ o'.potential < o.potential)

theorem Repairs.trans {o₁ o₂ o₃ : FixOutcome} (h : o₁.Repairs o₂) (h' : o₂.Repairs o₃) :
    o₁.Repairs o₃ := by
  rcases h with rfl | h
  · exact h'
  · rcases h' with rfl | h'
    · exact .inr h
    · exact .inr ⟨h.1.trans h'.1, h'.2.trans h.2⟩

theorem repairs_apply (o : FixOutcome) (c : FailureClass) (rule : FixRule) :
    o.Repairs (o.apply c rule) := by
  unfold apply
  simp only
  split
  · exact .inl rfl
  · rename_i hchanged
    refine .inr ⟨by simp, ?_⟩
    have hne : (rule.transform o.text.toList).text ≠ o.text.toList := by
      intro heq
      simp [heq] at hchanged
    simpa [potential] using potential_transform rule hne

theorem repairs_foldl {α : Type} {f : FixOutcome → α → FixOutcome}
    (hf : ∀ (o : FixOutcome) (a : α), o.Repairs (f o a)) (o : FixOutcome) (as : List α) :
    o.Repairs (as.foldl f o) := by
  induction as generalizing o with
  | nil => exact .inl rfl
  | cons a as ih => exact (hf o a).trans (ih (f o a))

end FixOutcome

/-- A repair changes nothing, or it lowers the potential of the text. -/
theorem fixClasses_repairs (text : String) (classes : List FailureClass) :
    FixOutcome.Repairs { text } (fixClasses text classes) :=
  FixOutcome.repairs_foldl
    (fun o c => FixOutcome.repairs_foldl (fun o => o.repairs_apply c) o _) _ classes

theorem potential_fixClasses {text : String} {classes : List FailureClass}
    (h : (fixClasses text classes).isChanged = true) :
    potential (fixClasses text classes).text.toList < potential text.toList := by
  rcases fixClasses_repairs text classes with hsame | ⟨-, hlt⟩
  · rw [hsame] at h
    cases h
  · exact hlt

/-- What is recorded as changed is changed. -/
theorem text_fixClasses_ne {text : String} {classes : List FailureClass}
    (h : (fixClasses text classes).isChanged = true) : (fixClasses text classes).text ≠ text := by
  intro heq
  have hlt := potential_fixClasses h
  rw [heq] at hlt
  exact Nat.lt_irrefl _ hlt

theorem text_fixClasses_of_not_isChanged {text : String} {classes : List FailureClass}
    (h : (fixClasses text classes).isChanged = false) : (fixClasses text classes).text = text := by
  rcases fixClasses_repairs text classes with hsame | ⟨hlt, -⟩
  · rw [hsame]
  · simp only [FixOutcome.isChanged, Bool.not_eq_false', List.isEmpty_iff] at h
    simp [h] at hlt

/-- **Records of changes are truthful.** For all classes in any order, a repair records a change
exactly if it gives another text: no rule undoes all that the rules before it changed. -/
theorem isChanged_fixClasses (text : String) (classes : List FailureClass) :
    (fixClasses text classes).isChanged = true ↔ (fixClasses text classes).text ≠ text := by
  constructor
  · exact text_fixClasses_ne
  · intro hne
    by_contra hsame
    exact hne (text_fixClasses_of_not_isChanged (Bool.not_eq_true _ ▸ hsame))

end ContractBuild
