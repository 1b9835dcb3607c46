import ContractBuild.Proofs.NormalPath
import Mathlib.Data.List.Induction

/-!
# Joined paths

Where a path leads is its `trail`, and everything that normal forms are about can be said of trails:
joining a path to another goes on from the trail of the first (`trail_join`), a normal form has the
trail of the path it is of (`trail_normalize`), and the directory of a normal form has the trail
without its last step (`trail_directory`). Going on with a normal form is going on with the path it
is of (`foldl_reverse_foldl`), so a relative path may be normalized before it is joined. Where steps
are not folded, a relative path that is joined adds its own (`components_join`).
-/

namespace ContractBuild.Path

open Text

/-! ## Steps behind the front -/

/-- What the stretches of a path say, without a root or a dot at its front. -/
def innerSteps (cs : List Char) : List Component := (segments cs).filterMap step?

theorem segments_append_slash (a b : List Char) :
    segments (a ++ '/' :: b) = segments a ++ segments b := by
  unfold segments
  induction a with
  | nil => simp [splitWhere]
  | cons c a ih =>
    rw [List.cons_append, splitWhere, splitWhere, ih]
    split
    · rfl
    · cases hs : splitWhere (· == '/') a with
      | nil =>
        -- nothing splits into no stretches
        have := segments_eq_splitOn a
        rw [segments, hs] at this
        exact absurd this.symm (List.splitOn_ne_nil '/' a)
      | cons w ws => rfl

theorem innerSteps_append_slash (a b : List Char) :
    innerSteps (a ++ '/' :: b) = innerSteps a ++ innerSteps b := by
  rw [innerSteps, segments_append_slash, List.filterMap_append, innerSteps, innerSteps]

@[simp] theorem innerSteps_nil : innerSteps [] = [] := rfl

@[simp] theorem innerSteps_slash (cs : List Char) : innerSteps ('/' :: cs) = innerSteps cs :=
  innerSteps_append_slash [] cs

theorem isPlain_of_mem_innerSteps {cs : List Char} {c : Component} (h : c ∈ innerSteps cs) :
    IsPlain c := isPlain_of_mem_filterMap (fun _ hp => hp) h

/-- The steps of a path are those behind its front, and a root if it is absolute. -/
theorem components_eq (p : Path) :
    (p.isAbsolute = true ∧ p.components = .root :: innerSteps p.text.toList) ∨
    (p.isAbsolute = false ∧ p.components = .here :: innerSteps p.text.toList) ∨
    (p.isAbsolute = false ∧ p.components = innerSteps p.text.toList) := by
  unfold components isAbsolute
  split
  · rename_i rest h
    exact .inl ⟨by simp [h], by rw [h, innerSteps_slash, innerSteps]⟩
  · rename_i cs h
    have hrel : (p.text.toList.head? == some '/') = false := by
      cases hcs : p.text.toList with
      | nil => rfl
      | cons c rest =>
        rw [List.head?_cons, Option.some_beq_some, beq_eq_false_iff_ne]
        rintro rfl
        exact h rest hcs
    refine .inr ?_
    split
    · rename_i more hs
      refine .inl ⟨hrel, ?_⟩
      have hdot : step? ['.'] = none := by decide
      rw [innerSteps, hs, List.filterMap_cons, hdot]
    · exact .inr ⟨hrel, rfl⟩

/-! ## Trails -/

/-- Where a path leads, the last step first. -/
def trail (p : Path) : List Component := p.components.foldl follow []

theorem normalize_eq (p : Path) : p.normalize = ofComponents p.trail.reverse := rfl

theorem isTrail (p : Path) : Trail p.trail := (trail_components p).1

theorem foldl_components (p : Path) (before : List Component) :
    p.components.foldl follow before =
      (innerSteps p.text.toList).foldl follow
        (if p.isAbsolute then .root :: before else before) := by
  rcases p.components_eq with ⟨ha, hc⟩ | ⟨ha, hc⟩ | ⟨ha, hc⟩ <;> rw [ha, hc] <;> rfl

theorem trail_eq (p : Path) :
    p.trail = (innerSteps p.text.toList).foldl follow (if p.isAbsolute then [.root] else []) :=
  foldl_components p []

/-- A normal form leads where the path leads. -/
@[simp] theorem trail_normalize (p : Path) : p.normalize.trail = p.trail := by
  have h := p.isTrail.resolve_reverse
  rw [trail, components_normalize, ← List.reverse_inj]
  exact h

theorem normalize_eq_of_trail {p q : Path} (h : p.trail = q.trail) : p.normalize = q.normalize := by
  rw [normalize_eq, normalize_eq, h]

theorem components_eq_trail {p : Path} (hp : p.normalize = p) :
    p.components = p.trail.reverse := by
  conv => lhs; rw [← hp, components_normalize]
  rfl

/-- A trail goes to the root exactly if its path is absolute. -/
theorem root_mem_trail_iff (p : Path) : .root ∈ p.trail ↔ p.isAbsolute = true := by
  have hinner : .root ∉ innerSteps p.text.toList := fun h =>
    ne_root_of_isPlain (isPlain_of_mem_innerSteps h) rfl
  rw [trail_eq]
  constructor
  · intro h
    rcases mem_foldl_follow h with h | h
    · exact absurd h hinner
    · by_contra ha
      rw [if_neg ha] at h
      cases h
  · intro ha
    rw [if_pos ha]
    -- a root is never taken back
    have hkept : ∀ (steps before : List Component), .root ∈ before →
        .root ∈ steps.foldl follow before := by
      intro steps
      induction steps with
      | nil => exact fun _ h => h
      | cons c steps ih =>
        intro before h
        refine ih _ ?_
        unfold follow
        split
        · exact h
        · split
          · simpa using h
          · exact h
          · exact List.mem_cons_of_mem _ h
        · exact List.mem_cons_of_mem _ h
    exact hkept _ _ (by simp)

@[simp] theorem isAbsolute_normalize (p : Path) : p.normalize.isAbsolute = p.isAbsolute := by
  rw [Bool.eq_iff_iff, ← root_mem_trail_iff, trail_normalize, root_mem_trail_iff]

/-- The steps of a normal form that is relative. -/
theorem innerSteps_normalize {p : Path} (h : p.isAbsolute = false) :
    innerSteps p.normalize.text.toList = p.trail.reverse := by
  have hc : p.normalize.components = p.trail.reverse := components_normalize p
  rcases p.normalize.components_eq with ⟨ha, -⟩ | ⟨-, hn⟩ | ⟨-, hn⟩
  · rw [isAbsolute_normalize, h] at ha
    cases ha
  · have hdot : .here ∈ p.trail := by
      rw [← List.mem_reverse, ← hc, hn]
      simp
    exact absurd hdot p.isTrail.cases_root.1
  · rw [← hc, hn]

/-! ## Going on from a trail -/

/-- **Going on with folded steps is going on with the steps.** -/
theorem foldl_reverse_foldl {steps : List Component} (h : .root ∉ steps) (before : List Component) :
    (steps.foldl follow []).reverse.foldl follow before = steps.foldl follow before := by
  induction steps using List.reverseRecOn with
  | nil => rfl
  | append_singleton steps c ih =>
    rw [List.mem_append, not_or] at h
    rw [List.foldl_append, List.foldl_append, List.foldl_cons, List.foldl_nil, List.foldl_cons,
      List.foldl_nil, ← ih h.1]
    have hroot : .root ∉ steps.foldl follow [] := fun hr => by
      rcases mem_foldl_follow hr with hr | hr
      · exact h.1 hr
      · cases hr
    generalize steps.foldl follow [] = trail at hroot ⊢
    cases c with
    | root => simp at h
    | here => rfl
    | name s => simp [follow]
    | up =>
      -- a parent step takes back the name before it, or stays
      cases trail with
      | nil => rfl
      | cons c trail =>
        cases c with
        | root => simp at hroot
        | here => simp [follow]
        | up => simp [follow]
        | name s => simp [follow]

theorem join_of_isAbsolute {q : Path} (h : q.isAbsolute = true) (p : Path) : p.join q = q := by
  simp [join, h]

theorem innerSteps_join {q : Path} (h : q.isAbsolute = false) (p : Path) :
    innerSteps (p.join q).text.toList =
      innerSteps p.text.toList ++ innerSteps q.text.toList := by
  unfold join
  rw [h, Bool.false_or]
  split
  · rename_i hp
    have hnil : p.text.toList = [] := by simpa [isEmpty] using hp
    rw [hnil, innerSteps_nil, List.nil_append]
  · split
    · rename_i hlast
      obtain ⟨front, hfront⟩ := List.getLast?_eq_some_iff.mp (beq_iff_eq.mp hlast)
      rw [String.toList_append, hfront, List.append_assoc, List.singleton_append,
        innerSteps_append_slash, innerSteps_append_slash, innerSteps_nil, List.append_nil]
    · simp [innerSteps_append_slash]

theorem isAbsolute_join {q : Path} (h : q.isAbsolute = false) (p : Path) :
    (p.join q).isAbsolute = p.isAbsolute := by
  unfold join
  rw [h, Bool.false_or]
  split
  · rename_i hp
    have hnil : p.text.toList = [] := by simpa [isEmpty] using hp
    rw [h, isAbsolute, hnil]
    rfl
  · rename_i hp
    have hne : p.text.toList ≠ [] := by simpa [isEmpty] using hp
    obtain ⟨c, rest, hc⟩ := List.exists_cons_of_ne_nil hne
    split <;> simp [isAbsolute, hc]

/-- **A relative path that is joined goes on where the first one leads.** -/
theorem trail_join {q : Path} (h : q.isAbsolute = false) (p : Path) :
    (p.join q).trail = (innerSteps q.text.toList).foldl follow p.trail := by
  rw [trail_eq, innerSteps_join h, isAbsolute_join h, List.foldl_append, ← trail_eq]

/-- A joined path leads where the trail of the second leads from the first. -/
theorem trail_join_trail {q : Path} (h : q.isAbsolute = false) (p : Path) :
    (p.join q).trail = q.trail.reverse.foldl follow p.trail := by
  have hinner : .root ∉ innerSteps q.text.toList := fun hr =>
    ne_root_of_isPlain (isPlain_of_mem_innerSteps hr) rfl
  rw [trail_join h, trail_eq q, h]
  exact (foldl_reverse_foldl hinner _).symm

/-- **A normal form may stand for its path in front of what is joined to it.** -/
theorem normalize_join (p q : Path) :
    (p.join q).normalize = (p.normalize.join q).normalize := by
  cases hq : q.isAbsolute with
  | true => rw [join_of_isAbsolute hq, join_of_isAbsolute hq]
  | false =>
    refine normalize_eq_of_trail ?_
    rw [trail_join hq, trail_join hq, trail_normalize]

/-- What is joined to two spellings of the same steps leads to one place. -/
theorem normalize_join_congr {p p' : Path} (h : p.sameSteps p' = true) (q : Path) :
    (p.join q).normalize = (p'.join q).normalize := by
  have hsame : p.normalize = p'.normalize := congrArg (ofComponents ∘ resolve) (beq_iff_eq.mp h)
  rw [normalize_join p, normalize_join p', hsame]

/-- A relative path may be normalized before it is joined. -/
theorem trail_join_normalize {q : Path} (h : q.isAbsolute = false) (p : Path) :
    (p.join q.normalize).trail = (p.join q).trail := by
  rw [trail_join_trail (by rw [isAbsolute_normalize, h]), trail_join_trail h, trail_normalize]

/-! ## Directories -/

theorem slash_notMem_texts {steps : List Component} (h : ∀ c ∈ steps, IsPlain c) :
    ∀ part ∈ steps.map (·.text.toList), '/' ∉ part := by
  intro part hp
  obtain ⟨c, hc, rfl⟩ := List.mem_map.mp hp
  exact (h c hc).1

/-- Plain steps say something, so none is dropped at an end. -/
theorem dropWhile_idle_texts {steps : List Component} (h : ∀ c ∈ steps, IsPlain c) :
    (steps.map (·.text.toList)).dropWhile idle = steps.map (·.text.toList) := by
  cases steps with
  | nil => rfl
  | cons c steps => simp [not_idle_of_isPlain (h c (by simp))]

theorem ofComponents_of_isPlain {steps : List Component} (h : ∀ c ∈ steps, IsPlain c) :
    ofComponents steps = ⟨String.ofList (slashed (steps.map (·.text.toList)))⟩ := by
  unfold ofComponents
  split
  · exact absurd rfl (ne_root_of_isPlain (h .root (by simp)))
  · rfl

/-- The spelling of plain steps starts with a character of the first one. -/
theorem exists_slashed_eq_cons {c : Component} (h : IsPlain c) (steps : List Component) :
    ∃ a rest, slashed ((c :: steps).map (·.text.toList)) = a :: rest ∧ a ≠ '/' := by
  have hidle := not_idle_of_isPlain h
  cases ht : c.text.toList with
  | nil => simp [idle, ht] at hidle
  | cons a as =>
    have hslash : a ≠ '/' := fun he => h.1 (by simp [ht, he])
    cases steps <;> simp [slashed, List.intercalate_cons_cons, ht, hslash]

theorem directory_ofComponents {steps : List Component} {c : Component}
    (h : ∀ d ∈ steps ++ [c], IsPlain d) :
    (ofComponents (steps ++ [c])).directory = ofComponents steps := by
  have hsteps : ∀ d ∈ steps, IsPlain d := fun d hd => h d (by simp [hd])
  have hlast : idle c.text.toList = false := not_idle_of_isPlain (h c (by simp))
  have hseg := segments_slashed (slash_notMem_texts h) (by simp)
  rw [ofComponents_of_isPlain h, ofComponents_of_isPlain hsteps, directory, parent?,
    String.toList_ofList]
  cases steps with
  | nil =>
    obtain ⟨a, rest, ha, hne⟩ := exists_slashed_eq_cons (h c (by simp)) []
    rw [List.nil_append] at hseg ⊢
    rw [ha] at hseg ⊢
    split
    · simp_all
    · simp_all
    · rw [hseg]
      rfl
  | cons d steps =>
    obtain ⟨a, rest, ha, hne⟩ := exists_slashed_eq_cons (h d (by simp)) (steps ++ [c])
    rw [List.cons_append] at hseg ⊢
    rw [ha] at hseg ⊢
    have hback : ∀ e ∈ steps.reverse, IsPlain e := fun e he =>
      hsteps e (by simp [List.mem_reverse.mp he])
    have hdrop := dropWhile_idle_texts hback
    rw [List.map_reverse] at hdrop
    split
    · simp_all
    · simp_all
    · rw [hseg]
      simp [hlast, hdrop]

theorem directory_ofComponents_root {steps : List Component} {c : Component}
    (h : ∀ d ∈ steps ++ [c], IsPlain d) :
    (ofComponents (.root :: (steps ++ [c]))).directory = ofComponents (.root :: steps) := by
  have hlast : idle c.text.toList = false := not_idle_of_isPlain (h c (by simp))
  have hseg := segments_slashed (slash_notMem_texts h) (by simp)
  have hback : ∀ e ∈ steps.reverse, IsPlain e := fun e he =>
    h e (by simp [List.mem_reverse.mp he])
  have hdrop := dropWhile_idle_texts hback
  rw [List.map_reverse] at hdrop
  simp only [ofComponents, directory, parent?, String.toList_ofList]
  rw [hseg]
  simp [hlast, hdrop]

/-- The steps of a trail can be read back. -/
theorem isPlain_of_mem_trail {p : Path} {c : Component} (h : c ∈ p.trail) (hc : c ≠ .root) :
    IsPlain c := ((trail_components p).2 c h).resolve_left hc

/-- **The directory of a normal form leads to the step before the last.** -/
theorem directory_of_trail {p : Path} (hp : p.normalize = p) {c : Component}
    {before : List Component} (ht : p.trail = c :: before) (hc : c ≠ .root) :
    p.directory = ofComponents before.reverse := by
  have hplain : ∀ d ∈ c :: before, d ≠ .root → IsPlain d := fun d hd hne =>
    isPlain_of_mem_trail (by rwa [ht]) hne
  have htrail : Trail (c :: before) := ht ▸ p.isTrail
  rw [← hp, normalize_eq, ht, List.reverse_cons]
  rcases htrail.cases_root.2 with hr | ⟨names, hnames, hr⟩
  · refine directory_ofComponents fun d hd => ?_
    have hmem : d ∈ c :: before := by simpa [or_comm] using hd
    exact hplain d hmem fun he => hr (he ▸ hmem)
  · -- the names lie behind a root
    cases names with
    | nil =>
      rw [List.nil_append, List.cons.injEq] at hnames
      exact absurd hnames.1 hc
    | cons d names =>
      rw [List.cons_append, List.cons.injEq] at hnames
      obtain ⟨rfl, rfl⟩ := hnames
      rw [List.reverse_append, List.reverse_singleton, List.singleton_append, List.cons_append]
      refine directory_ofComponents_root fun d hd => ?_
      have hmem : d ∈ c :: names := by simpa [or_comm] using hd
      have hmem' : d ∈ (c :: names) ++ [Component.root] := List.mem_append_left _ hmem
      exact hplain d hmem' fun he => hr (he ▸ hmem)

/-- A trail before its last step is a trail. -/
theorem Trail.of_cons {c : Component} {before : List Component} (h : Trail (c :: before))
    (hc : c ≠ .root) : Trail before := by
  generalize ht : c :: before = all at h
  cases h with
  | root =>
    rw [List.cons.injEq] at ht
    exact absurd ht.1 hc
  | ups n =>
    cases n with
    | zero => cases ht
    | succ n =>
      rw [List.replicate_succ, List.cons.injEq] at ht
      exact ht.2 ▸ .ups n
  | name s h =>
    rw [List.cons.injEq] at ht
    exact ht.2 ▸ h

/-- The spelling of a trail leads along it. -/
theorem trail_ofComponents {before : List Component} (ht : Trail before)
    (hp : ∀ c ∈ before, c = .root ∨ IsPlain c) : (ofComponents before.reverse).trail = before := by
  rw [trail, ht.components_ofComponents hp, ← List.reverse_inj]
  exact ht.resolve_reverse

theorem trail_directory {p : Path} (hp : p.normalize = p) {c : Component} {before : List Component}
    (ht : p.trail = c :: before) (hc : c ≠ .root) : p.directory.trail = before := by
  have hall : ∀ d ∈ p.trail, d = .root ∨ IsPlain d := (trail_components p).2
  rw [directory_of_trail hp ht hc]
  have htrail : Trail (c :: before) := ht ▸ p.isTrail
  exact trail_ofComponents (htrail.of_cons hc) fun d hd =>
    hall d (by rw [ht]; exact List.mem_cons_of_mem _ hd)

theorem eq_empty_of_trail {p : Path} (hp : p.normalize = p) (ht : p.trail = []) : p = ∅ := by
  rw [← hp, normalize_eq, ht]
  rfl

theorem eq_root_of_trail {p : Path} (hp : p.normalize = p) {before : List Component}
    (ht : p.trail = .root :: before) : p = ⟨"/"⟩ := by
  have htrail : Trail (.root :: before) := ht ▸ p.isTrail
  generalize hall : Component.root :: before = all at htrail
  cases htrail with
  | root =>
    rw [← hp, normalize_eq, ht, hall]
    rfl
  | ups n => cases n <;> cases hall
  | name => cases hall

/-- The directory of a normal form is one. -/
theorem normalize_directory {p : Path} (hp : p.normalize = p) :
    p.directory.normalize = p.directory := by
  cases ht : p.trail with
  | nil =>
    rw [eq_empty_of_trail hp ht]
    rfl
  | cons c before =>
    by_cases hc : c = .root
    · subst hc
      rw [eq_root_of_trail hp ht]
      rfl
    · rw [normalize_eq, trail_directory hp ht hc, directory_of_trail hp ht hc]

/-- A directory is absolute as its path is, unless that is the root itself. -/
theorem isAbsolute_directory {p : Path} (hp : p.normalize = p) {c : Component}
    {before : List Component} (ht : p.trail = c :: before) (hc : c ≠ .root) :
    p.directory.isAbsolute = p.isAbsolute := by
  rw [Bool.eq_iff_iff, ← root_mem_trail_iff, ← root_mem_trail_iff, trail_directory hp ht hc, ht,
    List.mem_cons, or_iff_right hc.symm]

/-- The directory of a relative normal form is relative, and no deeper. -/
theorem directory_of_relative {p : Path} (hp : p.normalize = p) (hr : p.isAbsolute = false) :
    p.directory.isAbsolute = false ∧ p.directory.trail.length ≤ p.trail.length := by
  have hroot : .root ∉ p.trail := by
    rw [root_mem_trail_iff, hr]
    simp
  cases ht : p.trail with
  | nil =>
    rw [eq_empty_of_trail hp ht]
    decide
  | cons c before =>
    rw [ht] at hroot
    obtain ⟨hc, hbefore⟩ := not_or.mp (List.mem_cons.not.mp hroot)
    have htrail := trail_directory hp ht (Ne.symm hc)
    refine ⟨?_, by rw [htrail, List.length_cons]; exact Nat.le_succ _⟩
    rwa [← Bool.not_eq_true, ← root_mem_trail_iff, htrail]

/-! ## Steps of joined paths -/

/-- What the stretches of a relative path say. -/
def relativeSteps : List (List Char) → List Component
  | ['.'] :: more => .here :: more.filterMap step?
  | all => all.filterMap step?

theorem components_of_relative {p : Path} (h : p.isAbsolute = false) :
    p.components = relativeSteps (segments p.text.toList) := by
  unfold components
  split
  · rename_i rest hslash
    simp [isAbsolute, hslash] at h
  · rfl

/-- Only the first stretch can be a dot that counts. -/
theorem relativeSteps_append {parts : List (List Char)} (h : parts ≠ []) (more : List (List Char)) :
    relativeSteps (parts ++ more) = relativeSteps parts ++ more.filterMap step? := by
  obtain ⟨first, parts, rfl⟩ := List.exists_cons_of_ne_nil h
  by_cases hdot : first = ['.']
  · subst hdot
    simp [relativeSteps]
  · have hplain (rest : List (List Char)) :
        relativeSteps (first :: rest) = (first :: rest).filterMap step? := by
      unfold relativeSteps
      split
      · rename_i he
        exact absurd (List.cons.inj he).1 hdot
      · rfl
    rw [List.cons_append, hplain, hplain, ← List.cons_append, List.filterMap_append]

/-- What stands behind a slash adds its steps. -/
theorem components_append_slash {front : List Char} (h : front ≠ []) (rest : List Char) :
    (Path.mk (String.ofList (front ++ '/' :: rest))).components =
      (Path.mk (String.ofList front)).components ++ innerSteps rest := by
  obtain ⟨c, front, rfl⟩ := List.exists_cons_of_ne_nil h
  by_cases hc : c = '/'
  · subst hc
    simp [components, segments_append_slash, innerSteps]
  · have hne : segments (c :: front) ≠ [] := by
      rw [segments_eq_splitOn]
      exact List.splitOn_ne_nil '/' _
    have hrel (cs : List Char) : (Path.mk (String.ofList (c :: cs))).isAbsolute = false := by
      simp [isAbsolute, hc]
    rw [List.cons_append, components_of_relative (hrel _), components_of_relative (hrel _),
      String.toList_ofList, String.toList_ofList, ← List.cons_append, segments_append_slash,
      relativeSteps_append hne, innerSteps]

/-- **A relative path that is joined adds its steps**, without a dot in front of it. -/
theorem components_join {p q : Path} (hp : p.isEmpty = false) (hq : q.isAbsolute = false) :
    (p.join q).components = p.components ++ innerSteps q.text.toList := by
  have hne : p.text.toList ≠ [] := by simpa [isEmpty] using hp
  have hsame (cs : List Char) (h : p.text.toList = cs) :
      p.components = (Path.mk (String.ofList cs)).components := by
    rw [← h, String.ofList_toList]
  unfold join
  rw [hq, hp, Bool.false_or, if_neg Bool.false_ne_true]
  split
  · rename_i hlast
    obtain ⟨front, hfront⟩ := List.getLast?_eq_some_iff.mp (beq_iff_eq.mp hlast)
    have htext : p.text ++ q.text = String.ofList (front ++ '/' :: q.text.toList) := by
      rw [← String.toList_inj, String.toList_append, hfront]
      simp
    rw [htext, hsame _ hfront]
    cases front with
    | nil => simp [components, innerSteps, segments, Text.splitWhere, step?, idle]
    | cons c front =>
      have hfront : c :: front ≠ [] := List.cons_ne_nil c front
      rw [components_append_slash hfront, components_append_slash hfront, innerSteps_nil,
        List.append_nil]
  · have htext : p.text ++ "/" ++ q.text =
        String.ofList (p.text.toList ++ '/' :: q.text.toList) := by
      rw [← String.toList_inj]
      simp
    rw [htext, components_append_slash hne, ← hsame _ rfl]

/-- A plain name is a relative path. -/
theorem isAbsolute_name {s : String} (h : IsPlain (.name s)) : (Path.mk s).isAbsolute = false := by
  have hslash : '/' ∉ s.toList := h.1
  cases hs : s.toList with
  | nil => simp [isAbsolute, hs]
  | cons c cs =>
    rw [hs, List.mem_cons, not_or] at hslash
    simp [isAbsolute, hs, Ne.symm hslash.1]

theorem slashed_name (s : String) :
    slashed ([Component.name s].map (·.text.toList)) = s.toList := by
  simp [slashed, Component.text]

theorem innerSteps_name {s : String} (h : IsPlain (.name s)) : innerSteps s.toList = [.name s] := by
  have hread := @filterMap_step?_segments [.name s] (by simpa using h)
  rwa [slashed_name] at hread

/-- A plain name that is joined is one more step. -/
theorem components_join_name {s : String} (h : IsPlain (.name s)) (p : Path) :
    (p.join ⟨s⟩).components = p.components ++ [.name s] := by
  cases hp : p.isEmpty with
  | false => rw [components_join hp (isAbsolute_name h), innerSteps_name h]
  | true =>
    obtain ⟨text⟩ := p
    obtain rfl : text = "" := by simpa [isEmpty] using hp
    have hall : ∀ c ∈ [Component.name s], IsPlain c := by simpa using h
    have hread := components_ofComponents hall
    rw [ofComponents_of_isPlain hall, slashed_name, String.ofList_toList] at hread
    rw [join, hp, Bool.or_true, if_pos rfl, hread]
    rfl

/-- Plain names that are joined one after the other are steps of their own. -/
theorem components_foldl_join {names : List String} (h : ∀ s ∈ names, IsPlain (.name s))
    (p : Path) : (names.foldl (fun p s => p.join ⟨s⟩) p).components =
      p.components ++ names.map .name := by
  induction names generalizing p with
  | nil => simp
  | cons s names ih =>
    obtain ⟨hs, hnames⟩ := List.forall_mem_cons.mp h
    rw [List.foldl_cons, ih hnames, components_join_name hs]
    simp

theorem root_mem_components_iff (p : Path) : .root ∈ p.components ↔ p.isAbsolute = true := by
  have hinner : .root ∉ innerSteps p.text.toList := fun h =>
    ne_root_of_isPlain (isPlain_of_mem_innerSteps h) rfl
  rcases p.components_eq with ⟨ha, hc⟩ | ⟨ha, hc⟩ | ⟨ha, hc⟩ <;> simp [ha, hc, hinner]

theorem isPlain_of_name_mem_components {p : Path} {s : String} (h : .name s ∈ p.components) :
    IsPlain (.name s) := by
  obtain ⟨steps, hsteps, hp | hp | hp⟩ := components_cases p
  · exact hsteps _ (by simpa [hp] using h)
  · exact hsteps _ (by simpa [hp] using h)
  · exact hsteps _ (hp ▸ h)

/-! ## Characters -/

theorem mem_of_mem_segments {cs part : List Char} (h : part ∈ segments cs) {x : Char}
    (hx : x ∈ part) : x ∈ cs := by
  induction cs generalizing part with
  | nil =>
    rw [List.mem_singleton.mp h] at hx
    cases hx
  | cons c cs ih =>
    unfold segments at h ih
    rw [splitWhere] at h
    split at h
    · rcases List.mem_cons.mp h with rfl | h
      · cases hx
      · exact List.mem_cons_of_mem _ (ih h hx)
    · split at h
      · rw [List.mem_singleton.mp h] at hx
        rw [List.mem_singleton.mp hx]
        exact List.mem_cons_self
      · rename_i w ws hw
        rcases List.mem_cons.mp h with rfl | h
        · rcases List.mem_cons.mp hx with rfl | hx
          · exact List.mem_cons_self
          · exact List.mem_cons_of_mem _ (ih (hw ▸ List.mem_cons_self) hx)
        · exact List.mem_cons_of_mem _ (ih (hw ▸ List.mem_cons_of_mem _ h) hx)

theorem mem_of_mem_slashed {parts : List (List Char)} {x : Char} (hs : x ≠ '/')
    (h : x ∈ slashed parts) : ∃ part ∈ parts, x ∈ part := by
  induction parts with
  | nil => simp [slashed] at h
  | cons part parts ih =>
    cases parts with
    | nil => exact ⟨part, List.mem_cons_self, by simpa [slashed] using h⟩
    | cons next more =>
      rw [slashed_cons part (List.cons_ne_nil next more), List.mem_append, List.mem_cons] at h
      rcases h with h | h | h
      · exact ⟨part, List.mem_cons_self, h⟩
      · exact absurd h hs
      · obtain ⟨p, hp, hx⟩ := ih h
        exact ⟨p, List.mem_cons_of_mem _ hp, hx⟩

theorem mem_of_mem_innerSteps {cs : List Char} {c : Component} (h : c ∈ innerSteps cs) {x : Char}
    (hx : x ∈ c.text.toList) : x ∈ cs := by
  obtain ⟨part, hp, hstep⟩ := List.mem_filterMap.mp h
  rw [text_of_step? hstep] at hx
  exact mem_of_mem_segments hp hx

/-- A directory is written with the characters of its path. -/
theorem mem_of_mem_directory {p : Path} {x : Char} (hs : x ≠ '/')
    (h : x ∈ p.directory.text.toList) : x ∈ p.text.toList := by
  -- what is left of some stretches when those that say nothing are dropped at an end
  have hkept {parts before : List (List Char)} {last part : List Char}
      (hb : parts.reverse.dropWhile idle = last :: before)
      (hp : part ∈ (before.dropWhile idle).reverse) : part ∈ parts := by
    have hmem : part ∈ last :: before :=
      List.mem_cons_of_mem _ ((List.dropWhile_suffix idle).mem (List.mem_reverse.mp hp))
    rw [← hb] at hmem
    exact List.mem_reverse.mp ((List.dropWhile_suffix idle).mem hmem)
  unfold directory parent? at h
  split at h
  · rename_i rest htext
    split at h
    · cases h
    · rename_i hb
      rw [Option.getD_some, String.toList_ofList, List.mem_cons] at h
      obtain ⟨part, hp, hx⟩ := mem_of_mem_slashed hs (h.resolve_left hs)
      rw [htext]
      exact List.mem_cons_of_mem _ (mem_of_mem_segments (hkept hb hp) hx)
  · cases h
  · split at h
    · cases h
    · rename_i first more hseg
      split at h
      · cases h
      · rename_i hb
        rw [Option.getD_some, String.toList_ofList] at h
        obtain ⟨part, hp, hx⟩ := mem_of_mem_slashed hs h
        refine mem_of_mem_segments (hseg ▸ ?_) hx
        rcases List.mem_cons.mp hp with rfl | hp
        · exact List.mem_cons_self
        · exact List.mem_cons_of_mem _ (hkept hb hp)

theorem mem_of_mem_ofComponents {steps : List Component} {x : Char} (hs : x ≠ '/')
    (h : x ∈ (ofComponents steps).text.toList) : ∃ c ∈ steps, x ∈ c.text.toList := by
  unfold ofComponents at h
  split at h
  · rw [String.toList_ofList, List.mem_cons] at h
    obtain ⟨part, hp, hx⟩ := mem_of_mem_slashed hs (h.resolve_left hs)
    obtain ⟨c, hc, rfl⟩ := List.mem_map.mp hp
    exact ⟨c, List.mem_cons_of_mem _ hc, hx⟩
  · rw [String.toList_ofList] at h
    obtain ⟨part, hp, hx⟩ := mem_of_mem_slashed hs h
    obtain ⟨c, hc, rfl⟩ := List.mem_map.mp hp
    exact ⟨c, hc, hx⟩

/-- A normal form is written with the characters of its path. -/
theorem mem_of_mem_normalize {p : Path} {x : Char} (hs : x ≠ '/')
    (h : x ∈ p.normalize.text.toList) : x ∈ p.text.toList := by
  rw [normalize_eq] at h
  obtain ⟨c, hc, hx⟩ := mem_of_mem_ofComponents hs h
  rw [List.mem_reverse, trail_eq] at hc
  rcases mem_foldl_follow hc with hc | hc
  · exact mem_of_mem_innerSteps hc hx
  · split at hc
    · rw [List.mem_singleton.mp hc] at hx
      exact absurd (List.mem_singleton.mp hx) hs
    · cases hc

theorem mem_of_mem_join {p q : Path} {x : Char} (hs : x ≠ '/')
    (h : x ∈ (p.join q).text.toList) : x ∈ p.text.toList ∨ x ∈ q.text.toList := by
  unfold join at h
  split at h
  · exact .inr h
  · split at h <;> simpa [hs] using h

end ContractBuild.Path
