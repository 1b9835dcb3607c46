import ContractBuild.Path

/-!
# Normal forms of paths

A path is read back from the spelling of its steps (`components_ofComponents`), and the steps of a
normal form need no more folding (`Trail.resolve_reverse`). Main statement: `normalize_normalize`,
a normal form is its own normal form. So two spellings that normalize alike are one file to
everything that looks files up by their normal form.
-/

namespace ContractBuild.Path

open Text

/-! ## Stretches between slashes -/

/-- No stretch between slashes holds a slash. -/
theorem slash_notMem_of_mem_segments {cs part : List Char} (h : part ∈ segments cs) :
    '/' ∉ part := by
  induction cs generalizing part with
  | nil => simp_all [segments, splitWhere]
  | cons c cs ih =>
    unfold segments at ih h
    rw [splitWhere] at h
    split at h
    · rcases List.mem_cons.mp h with rfl | h
      · simp
      · exact ih h
    · rename_i hc
      have hc' : c ≠ '/' := by simpa using hc
      split at h
      · rw [List.mem_singleton.mp h]
        simp [hc'.symm]
      · rename_i w ws hw
        rcases List.mem_cons.mp h with rfl | h
        · have hw' : '/' ∉ w := ih (by rw [hw]; simp)
          simp [hw', hc'.symm]
        · exact ih (by rw [hw]; simp [h])

/-- Stretches without slashes are found again between the slashes that join them. -/
theorem segments_slashed {parts : List (List Char)} (h : ∀ part ∈ parts, '/' ∉ part)
    (hne : parts ≠ []) : segments (slashed parts) = parts := by
  rw [segments_eq_splitOn, slashed, List.splitOn_intercalate '/' h hne]

/-! ## Steps and their spelling -/

/-- A step that can stand behind the front of a path: its spelling holds no slash and is read back
as that step. -/
def IsPlain (c : Component) : Prop := '/' ∉ c.text.toList ∧ step? c.text.toList = some c

theorem text_of_step? {part : List Char} {c : Component} (h : step? part = some c) :
    c.text.toList = part := by
  unfold step? at h
  split at h
  · simp at h
  · split at h
    · rename_i he
      simp only [Option.some.injEq] at h
      simp only [beq_iff_eq] at he
      rw [← h, he]; rfl
    · simp only [Option.some.injEq] at h
      rw [← h]; simp [Component.text]

theorem isPlain_of_step? {part : List Char} {c : Component} (hs : '/' ∉ part)
    (h : step? part = some c) : IsPlain c := by
  have ht := text_of_step? h
  exact ⟨ht.symm ▸ hs, ht.symm ▸ h⟩

theorem not_idle_of_isPlain {c : Component} (h : IsPlain c) : idle c.text.toList = false := by
  obtain ⟨-, h⟩ := h
  unfold step? at h
  split at h
  · simp at h
  · simp_all

/-- Plain steps are read back from their spellings. -/
theorem filterMap_step?_text {steps : List Component} (h : ∀ c ∈ steps, IsPlain c) :
    (steps.map (·.text.toList)).filterMap step? = steps := by
  induction steps with
  | nil => rfl
  | cons c steps ih =>
    obtain ⟨-, hc⟩ := h c (by simp)
    simp [hc, ih fun d hd => h d (by simp [hd])]

/-- Plain steps are found between the slashes of their joint spelling. -/
theorem filterMap_step?_segments {steps : List Component} (h : ∀ c ∈ steps, IsPlain c) :
    (segments (slashed (steps.map (·.text.toList)))).filterMap step? = steps := by
  by_cases hne : steps = []
  · subst hne; rfl
  · rw [segments_slashed _ (by simpa using hne), filterMap_step?_text h]
    intro part hp
    obtain ⟨c, hc, rfl⟩ := List.mem_map.mp hp
    exact (h c hc).1

/-- The steps behind the front of a path are plain. -/
theorem isPlain_of_mem_filterMap {cs : List Char} {c : Component} {parts : List (List Char)}
    (hp : ∀ part ∈ parts, part ∈ segments cs) (h : c ∈ parts.filterMap step?) : IsPlain c := by
  obtain ⟨part, hm, hs⟩ := List.mem_filterMap.mp h
  exact isPlain_of_step? (slash_notMem_of_mem_segments (hp part hm)) hs

/-- The steps of a path: plain ones, behind a root, a dot or nothing. -/
theorem components_cases (p : Path) :
    ∃ steps, (∀ c ∈ steps, IsPlain c) ∧
      (p.components = .root :: steps ∨ p.components = .here :: steps ∨ p.components = steps) := by
  unfold components
  split
  · exact ⟨_, fun c => isPlain_of_mem_filterMap fun _ h => h, .inl rfl⟩
  · split
    · rename_i hs
      exact ⟨_, fun c => isPlain_of_mem_filterMap fun _ h => by rw [hs]; simp [h], .inr (.inl rfl)⟩
    · exact ⟨_, fun c => isPlain_of_mem_filterMap fun _ h => h, .inr (.inr rfl)⟩

theorem components_ofComponents_root {steps : List Component} (h : ∀ c ∈ steps, IsPlain c) :
    (ofComponents (.root :: steps)).components = .root :: steps := by
  simp only [ofComponents, components, String.toList_ofList]
  rw [filterMap_step?_segments h]

/-- **Steps are read back from their spelling.** -/
theorem components_ofComponents {steps : List Component} (h : ∀ c ∈ steps, IsPlain c) :
    (ofComponents steps).components = steps := by
  cases steps with
  | nil => rfl
  | cons c steps =>
    have hc := h c (by simp)
    have hof : ofComponents (c :: steps) =
        ⟨String.ofList (slashed ((c :: steps).map (·.text.toList)))⟩ := by
      unfold ofComponents
      split
      · rename_i he
        cases he
        exact absurd hc (by unfold IsPlain; decide)
      · rfl
    obtain ⟨a, as, ha⟩ : ∃ a as, c.text.toList = a :: as := by
      have := not_idle_of_isPlain hc
      cases hl : c.text.toList with
      | nil => simp [idle, hl] at this
      | cons a as => exact ⟨a, as, rfl⟩
    have hslash : a ≠ '/' := fun he => hc.1 (by simp [ha, he])
    have hseg : segments (slashed ((c :: steps).map (·.text.toList))) =
        (c :: steps).map (·.text.toList) :=
      segments_slashed (by
        intro part hp
        obtain ⟨d, hd, rfl⟩ := List.mem_map.mp hp
        exact (h d hd).1) (by simp)
    have hfront : ∃ rest, slashed ((c :: steps).map (·.text.toList)) = a :: rest := by
      cases steps <;> simp [slashed, List.intercalate_cons_cons, ha]
    obtain ⟨rest, hrest⟩ := hfront
    rw [hof]
    simp only [components, String.toList_ofList]
    split
    · rename_i he
      rw [hrest] at he
      simp_all
    · rw [hseg]
      split
      · rename_i he
        have := not_idle_of_isPlain hc
        simp_all [idle]
      · exact filterMap_step?_text h

/-! ## Trails -/

/-- Where folded steps lead, the last step first: names behind the root, or names behind a run of
parent steps. -/
inductive Trail : List Component → Prop where
  | root : Trail [.root]
  | ups (n : Nat) : Trail (List.replicate n .up)
  | name {trail : List Component} (s : String) : Trail trail → Trail (.name s :: trail)

/-- A step that is not a root keeps a trail. -/
theorem Trail.follow {trail : List Component} (h : Trail trail) {c : Component} (hc : c ≠ .root) :
    Trail (Path.follow trail c) := by
  cases c with
  | root => exact absurd rfl hc
  | here => exact h
  | name s => exact .name s h
  | up =>
    cases h with
    | root => exact .root
    | ups n =>
      cases n with
      | zero => exact .ups 1
      | succ n => exact .ups (n + 2)
    | name s h => exact h

theorem Trail.foldl {steps : List Component} (h : ∀ c ∈ steps, c ≠ .root) {trail : List Component}
    (ht : Trail trail) : Trail (steps.foldl Path.follow trail) := by
  induction steps generalizing trail with
  | nil => exact ht
  | cons c steps ih =>
    exact ih (fun d hd => h d (by simp [hd])) (ht.follow (h c (by simp)))

/-- The steps of a trail need no more folding. -/
theorem Trail.resolve_reverse {trail : List Component} (h : Trail trail) :
    resolve trail.reverse = trail.reverse := by
  suffices hf : trail.reverse.foldl Path.follow [] = trail by rw [resolve, hf]
  induction h with
  | root => rfl
  | ups n =>
    induction n with
    | zero => rfl
    | succ n ih =>
      rw [List.replicate_succ, List.reverse_cons, List.foldl_append, ih]
      cases n <;> rfl
  | name s _ ih => rw [List.reverse_cons, List.foldl_append, ih]; rfl

/-- Folding brings in no steps of its own. -/
theorem mem_foldl_follow {steps trail : List Component} {c : Component}
    (h : c ∈ steps.foldl follow trail) : c ∈ steps ∨ c ∈ trail := by
  induction steps generalizing trail with
  | nil => exact .inr h
  | cons d steps ih =>
    rcases ih h with h | h
    · exact .inl (by simp [h])
    · unfold follow at h
      split at h
      · exact .inr h
      · split at h
        · exact .inr (by simp [h])
        · exact .inr h
        · rcases List.mem_cons.mp h with rfl | h <;> simp [*]
      · rcases List.mem_cons.mp h with rfl | h <;> simp [*]

theorem ne_root_of_isPlain {c : Component} (h : IsPlain c) : c ≠ .root := by
  rintro rfl
  exact absurd h (by unfold IsPlain; decide)

/-- A trail has no dots, and a root only where it begins. -/
theorem Trail.cases_root {trail : List Component} (h : Trail trail) :
    .here ∉ trail ∧ (.root ∉ trail ∨ ∃ names, trail = names ++ [.root] ∧ .root ∉ names) := by
  induction h with
  | root => exact ⟨by simp, .inr ⟨[], rfl, by simp⟩⟩
  | ups n => exact ⟨by simp, .inl (by simp)⟩
  | name s _ ih =>
    obtain ⟨hh, hr⟩ := ih
    refine ⟨by simp [hh], ?_⟩
    rcases hr with hr | ⟨names, rfl, hr⟩
    · exact .inl (by simp [hr])
    · exact .inr ⟨.name s :: names, rfl, by simp [hr]⟩

/-- A trail is read back from the spelling of its steps. -/
theorem Trail.components_ofComponents {trail : List Component} (h : Trail trail)
    (hp : ∀ c ∈ trail, c = .root ∨ IsPlain c) :
    (ofComponents trail.reverse).components = trail.reverse := by
  rcases h.cases_root.2 with hr | ⟨names, rfl, hr⟩
  · apply Path.components_ofComponents
    intro c hc
    rcases hp c (by simpa using hc) with rfl | hc'
    · exact absurd (by simpa using hc) hr
    · exact hc'
  · rw [List.reverse_append]
    apply components_ofComponents_root
    intro c hc
    rcases hp c (by simp [List.mem_reverse.mp hc]) with rfl | hc'
    · exact absurd (by simpa using hc) hr
    · exact hc'

/-! ## Normal forms -/

/-- The steps of a path are folded along a trail, of steps that can be read back. -/
theorem trail_components (p : Path) :
    Trail (p.components.foldl follow []) ∧
      ∀ c ∈ p.components.foldl follow [], c = .root ∨ IsPlain c := by
  obtain ⟨steps, hs, hp⟩ := components_cases p
  have hroot : ∀ c ∈ steps, c ≠ .root := fun c hc => ne_root_of_isPlain (hs c hc)
  have ht : Trail (p.components.foldl follow []) := by
    rcases hp with hp | hp | hp <;> rw [hp]
    · exact Trail.root.foldl hroot
    · exact (Trail.ups 0).foldl hroot
    · exact (Trail.ups 0).foldl hroot
  refine ⟨ht, fun c hc => ?_⟩
  have hne : c ≠ .here := fun he => ht.cases_root.1 (he ▸ hc)
  have hm : c ∈ p.components := by simpa using mem_foldl_follow hc
  rcases hp with hp | hp | hp <;> rw [hp] at hm
  · rcases List.mem_cons.mp hm with rfl | hm
    · exact .inl rfl
    · exact .inr (hs c hm)
  · rcases List.mem_cons.mp hm with rfl | hm
    · exact absurd rfl hne
    · exact .inr (hs c hm)
  · exact .inr (hs c hm)

/-- The steps of a normal form are the folded ones. -/
theorem components_normalize (p : Path) : p.normalize.components = resolve p.components :=
  have ⟨ht, hp⟩ := trail_components p
  ht.components_ofComponents hp

/-- **A normal form is its own normal form.** -/
theorem normalize_normalize (p : Path) : p.normalize.normalize = p.normalize := by
  have ⟨ht, _⟩ := trail_components p
  have hr : resolve (resolve p.components) = resolve p.components := ht.resolve_reverse
  rw [normalize, components_normalize, hr, ← normalize]

end ContractBuild.Path
