import ContractBuild.Proofs.Collection.UnitNames
import ContractBuild.Source.Resolver

/-!
# Where an import is looked for, and in which order

- **The way up** (`Climb`): a directory, its parent, and so on. The way ends for every path, also
  for one that begins with parent steps (`climb_ancestors`), and there is only one
  (`Climb.unique`).
- **The places** (`Resolver.places`): beside the importer, and in the dependency directories along
  the way up.
- **The search** (`Resolver.dirsUpFrom_normalize`): it goes from directory to directory along the
  way up. The project's own directories come last, without those that are there in some spelling,
  which would find nothing new (`Resolver.find?_foldl_addDir`).
- **Remote references** (`RemoteRef.parse?_eq_some_iff`): what `github.com/owner/repo/path` is.

Main statement: `Resolver.locate_searches`.
-/

namespace ContractBuild

open Solidity Text ContractBuild.Path

/-! ## The way up -/

/-- `Climb d as`: `as` is the way up from `d`, nearest first: `d`, its parent, and so on up to the
empty path. Above the root of all paths comes the empty path, too. -/
inductive Climb : Path → List Path → Prop where
  | empty {d : Path} : d = ∅ → Climb d [d]
  | root {d : Path} : d = ⟨"/"⟩ → Climb d [d, ∅]
  | parent {d : Path} {as : List Path} :
      d ≠ ∅ → d ≠ ⟨"/"⟩ → Climb d.directory as → Climb d (d :: as)

/-- There is only one way up. -/
theorem Climb.unique {d : Path} {as as' : List Path} (h : Climb d as) (h' : Climb d as') :
    as = as' := by
  have hne : (∅ : Path) ≠ ⟨"/"⟩ := by decide
  induction h generalizing as' with
  | empty he =>
    cases h' with
    | empty => rfl
    | root hr => exact absurd (he.symm.trans hr) hne
    | parent hempty => exact absurd he hempty
  | root hr =>
    cases h' with
    | empty he => exact absurd (he.symm.trans hr) hne
    | root => rfl
    | parent _ hroot => exact absurd hr hroot
  | parent hempty hroot _ ih =>
    cases h' with
    | empty he => exact absurd he hempty
    | root hr => exact absurd hr hroot
    | parent _ _ h' => rw [ih h']

/-- Every way up ends at the empty path. -/
theorem Climb.empty_mem {d : Path} {as : List Path} (h : Climb d as) : ∅ ∈ as := by
  induction h with
  | empty he => simp [he]
  | root => simp
  | parent _ _ _ ih => exact List.mem_cons_of_mem _ ih

/-- Each dependency directory is named in one spelling. -/
def ResolverSettings.SpelledOnce (s : ResolverSettings) : Prop :=
  ∀ a ∈ s.dependencyDirs, ∀ b ∈ s.dependencyDirs, (Path.mk a).sameSteps ⟨b⟩ = true → a = b

namespace Resolver

/-- The path itself and the paths above it, nearest first, up to the empty path or the root. -/
def ancestors (p : Path) : List Path :=
  let steps := p.normalize.components
  let least := if p.isAbsolute then 1 else 0
  (List.range (steps.length + 1 - least)).map fun n => .ofComponents (steps.take (steps.length - n))

/-- The ancestors of a path, by its trail. -/
theorem ancestors_eq (p : Path) : ancestors p =
    (List.range (p.trail.length + 1 - if p.isAbsolute then 1 else 0)).map fun n =>
      .ofComponents (p.trail.drop n).reverse := by
  have hsteps : p.normalize.components = p.trail.reverse := components_normalize p
  unfold ancestors
  dsimp only
  rw [hsteps, List.length_reverse]
  refine List.map_congr_left fun n _ => ?_
  rw [List.reverse_drop]

@[simp] theorem ancestors_normalize (p : Path) : ancestors p.normalize = ancestors p := by
  rw [ancestors_eq, ancestors_eq, trail_normalize, isAbsolute_normalize]

/-- The ancestors of a path with a last step are itself and those of its directory. -/
theorem ancestors_of_trail {p : Path} (hp : p.normalize = p) {c : Component}
    {before : List Component} (ht : p.trail = c :: before) (hc : c ≠ .root) :
    ancestors p = p :: ancestors p.directory := by
  have hcount : p.trail.length + 1 - (if p.isAbsolute then 1 else 0) =
      (before.length + 1 - if p.isAbsolute then 1 else 0) + 1 := by
    rw [ht, List.length_cons]
    split <;> omega
  rw [ancestors_eq, ancestors_eq, hcount, List.range_succ_eq_map, List.map_cons, List.map_map,
    isAbsolute_directory hp ht hc, trail_directory hp ht hc, List.drop_zero, ← normalize_eq, hp, ht]
  rfl

/-- Induction along the way up from a normal form. -/
theorem ancestors_induction {motive : Path → Prop} (empty : motive ∅) (root : motive ⟨"/"⟩)
    (up : ∀ p : Path, p ≠ ∅ → p ≠ ⟨"/"⟩ → p.directory.isAbsolute = p.isAbsolute →
      ancestors p = p :: ancestors p.directory → motive p.directory → motive p)
    {p : Path} (hp : p.normalize = p) : motive p := by
  generalize ht : p.trail = trail
  induction trail generalizing p with
  | nil => exact eq_empty_of_trail hp ht ▸ empty
  | cons c before ih =>
    have hne : p ≠ ∅ := by
      rintro rfl
      cases ht
    by_cases hc : c = .root
    · subst hc
      exact eq_root_of_trail hp ht ▸ root
    · have hroot : p ≠ ⟨"/"⟩ := by
        rintro rfl
        cases ht
        exact hc rfl
      exact up p hne hroot (isAbsolute_directory hp ht hc) (ancestors_of_trail hp ht hc)
        (ih (normalize_directory hp) (trail_directory hp ht hc))

/-- The ancestors of a normal form, and the empty path behind the root, are the way up from it. -/
theorem climb_of_normalize {p : Path} (hp : p.normalize = p) :
    Climb p (ancestors p ++ if p.isAbsolute then [∅] else []) := by
  refine ancestors_induction
    (motive := fun p => Climb p (ancestors p ++ if p.isAbsolute then [∅] else []))
    (.empty rfl) (.root rfl) (fun p hne hroot habsolute hup ih => ?_) hp
  rw [habsolute] at ih
  rw [hup]
  exact .parent hne hroot ih

/-- All that stands above an absolute path is absolute, and nothing above a relative one. -/
theorem isAbsolute_of_mem_ancestors {p a : Path} (ha : a ∈ ancestors p) :
    a.isAbsolute = p.isAbsolute := by
  rw [← ancestors_normalize] at ha
  rw [← isAbsolute_normalize p]
  revert ha
  refine ancestors_induction
    (motive := fun p => a ∈ ancestors p → a.isAbsolute = p.isAbsolute)
    (fun ha => ?_) (fun ha => ?_) (fun p _ _ habsolute hup ih ha => ?_) (normalize_normalize p)
  · rw [List.mem_singleton.mp ha]
    rfl
  · rw [List.mem_singleton.mp ha]
    rfl
  · rw [hup] at ha
    rcases List.mem_cons.mp ha with rfl | ha
    · rfl
    · rw [ih ha, habsolute]

/-- **The way up ends**, wherever it starts. -/
theorem climb_ancestors (start : Path) :
    Climb start.normalize (ancestors start ++ if start.isAbsolute then [∅] else []) := by
  have h := climb_of_normalize (normalize_normalize start)
  rwa [ancestors_normalize, isAbsolute_normalize] at h

/-- From outside of the project it leads through the parent steps. -/
example : Climb ⟨"../../a"⟩ [⟨"../../a"⟩, ⟨"../.."⟩, ⟨".."⟩, ∅] := climb_ancestors ⟨"../../a"⟩

/-! ## The places -/

/-- The directories that hold dependencies along a way up, in order. -/
def dirsAlong (r : Resolver) (as : List Path) : List Path :=
  as.flatMap fun (a : Path) => r.settings.dependencyDirs.map fun name => a.join ⟨name⟩

/-- The places where an import is looked for, seen from a directory with a way up, in order. -/
def places (r : Resolver) (d : Path) (as : List Path) (raw : String) : List Path :=
  (d.join ⟨raw⟩).normalize ::
    if startsRelative raw || raw.toList.head? == some '/' then []
    else (r.dirsAlong as).map fun dir => (dir.join ⟨raw⟩).normalize

theorem dirsAlong_cons (r : Resolver) (a : Path) (as : List Path) :
    r.dirsAlong (a :: as) = r.dirsAlong [a] ++ r.dirsAlong as := by
  simp [dirsAlong]

theorem dirsAlong_append (r : Resolver) (as bs : List Path) :
    r.dirsAlong (as ++ bs) = r.dirsAlong as ++ r.dirsAlong bs := List.flatMap_append

/-- The project's own directories have the names that are given. -/
theorem dirsAlong_empty (r : Resolver) :
    r.dirsAlong [∅] = r.settings.dependencyDirs.map Path.mk := by
  have hempty : (∅ : Path).isEmpty = true := rfl
  rw [dirsAlong, List.flatMap_singleton]
  refine List.map_congr_left fun name _ => ?_
  rw [join, hempty, Bool.or_true, if_pos rfl]

theorem dirsAlong_subset (r : Resolver) {as bs : List Path} (h : as ⊆ bs) :
    r.dirsAlong as ⊆ r.dirsAlong bs := by
  intro dir hdir
  obtain ⟨a, ha, hmem⟩ := List.mem_flatMap.mp hdir
  exact List.mem_flatMap.mpr ⟨a, h ha, hmem⟩

/-! ## The search -/

/-- The search goes on in the directory above, except from the empty path and the root. -/
theorem dirsUpFrom_eq (r : Resolver) (dir : Path) :
    dirsUpFrom r.settings.dependencyDirs dir = r.dirsAlong [dir] ++
      if dir = ∅ ∨ dir = ⟨"/"⟩ then [] else dirsUpFrom r.settings.dependencyDirs dir.directory := by
  have hhere : r.dirsAlong [dir] = r.settings.dependencyDirs.map fun name => dir.join ⟨name⟩ :=
    List.flatMap_singleton _ _
  have hend : (dir.isEmpty || dir.text == "/") = true ↔ dir = ∅ ∨ dir = ⟨"/"⟩ := by
    rw [Bool.or_eq_true, isEmpty, String.isEmpty_iff, beq_iff_eq]
    exact or_congr ⟨congrArg Path.mk, congrArg Path.text⟩ ⟨congrArg Path.mk, congrArg Path.text⟩
  rw [dirsUpFrom, hhere]
  by_cases h : dir = ∅ ∨ dir = ⟨"/"⟩
  · rw [if_pos (hend.mpr h), if_pos h, List.append_nil]
  · rw [if_neg (mt hend.mp h), if_neg h]

theorem dirsUpFrom_of_normalize (r : Resolver) {p : Path} (hp : p.normalize = p) :
    dirsUpFrom r.settings.dependencyDirs p = r.dirsAlong (ancestors p) := by
  refine ancestors_induction
    (motive := fun p => dirsUpFrom r.settings.dependencyDirs p = r.dirsAlong (ancestors p))
    ?_ ?_ (fun p hne hroot _ hup ih => ?_) hp
  · rw [dirsUpFrom_eq, if_pos (.inl rfl), List.append_nil]
    rfl
  · rw [dirsUpFrom_eq, if_pos (.inr rfl), List.append_nil]
    rfl
  · rw [dirsUpFrom_eq, if_neg (not_or.mpr ⟨hne, hroot⟩), ih, hup, ← dirsAlong_cons]

/-- **The search goes along the way up.** -/
theorem dirsUpFrom_normalize (r : Resolver) (start : Path) :
    dirsUpFrom r.settings.dependencyDirs start.normalize = r.dirsAlong (ancestors start) := by
  rw [r.dirsUpFrom_of_normalize (normalize_normalize start), ancestors_normalize]

/-- The project's own directories are put behind those on the way up. -/
theorem searchDirs_eq (r : Resolver) (start : Path) :
    r.searchDirs start = (r.dirsAlong [∅]).foldl addDir (r.dirsAlong (ancestors start)) := by
  have hown : r.dirsAlong [∅] = r.settings.dependencyDirs.map fun name => Path.empty.join ⟨name⟩ :=
    List.flatMap_singleton _ _
  rw [searchDirs, dirsUpFrom_normalize, hown]

theorem sameSteps_refl (p : Path) : p.sameSteps p = true := beq_self_eq_true _

/-- What is put behind others in its order, and for what is not one of the same steps is there. -/
theorem exists_foldl_addDir (own dirs : List Path) :
    ∃ kept, own.foldl addDir dirs = dirs ++ kept ∧ kept.Sublist own ∧
      ∀ dir ∈ own, ∃ dir' ∈ dirs ++ kept, dir'.sameSteps dir = true := by
  induction own generalizing dirs with
  | nil => exact ⟨[], by simp, List.Sublist.slnil, by simp⟩
  | cons d own ih =>
    rw [List.foldl_cons, addDir]
    split
    · rename_i hany
      obtain ⟨kept, hfold, hsub, hcover⟩ := ih dirs
      obtain ⟨d', hd', hsame⟩ := List.any_eq_true.mp hany
      exact ⟨kept, hfold, hsub.cons d, List.forall_mem_cons.mpr
        ⟨⟨d', List.mem_append_left _ hd', hsame⟩, hcover⟩⟩
    · obtain ⟨kept, hfold, hsub, hcover⟩ := ih (dirs ++ [d])
      rw [List.append_assoc, List.singleton_append] at hfold hcover
      exact ⟨d :: kept, hfold, hsub.cons_cons d, List.forall_mem_cons.mpr
        ⟨⟨d, by simp, sameSteps_refl d⟩, hcover⟩⟩

/-- What is there already is not put in again. -/
theorem foldl_addDir_of_subset {own dirs : List Path} (h : own ⊆ dirs) :
    own.foldl addDir dirs = dirs := by
  induction own with
  | nil => rfl
  | cons d own ih =>
    obtain ⟨hd, hown⟩ := List.cons_subset.mp h
    have hany : dirs.any (·.sameSteps d) = true :=
      List.any_eq_true.mpr ⟨d, hd, sameSteps_refl d⟩
    rw [List.foldl_cons, addDir, if_pos hany, ih hown]

/-- What is searched again finds nothing new. -/
theorem find?_append_of_subset {α : Type} {p : α → Bool} {xs ys : List α} (h : ys ⊆ xs) :
    (xs ++ ys).find? p = xs.find? p := by
  rw [List.find?_append]
  cases hx : xs.find? p with
  | some x => rfl
  | none =>
    rw [List.find?_eq_none] at hx
    rw [Option.none_or, List.find?_eq_none]
    exact fun y hy => hx y (h hy)

/-- **What is left out would find nothing new**, as long as one place stands for all spellings. -/
theorem find?_foldl_addDir {f : Path → Path} {p : Path → Bool}
    (hf : ∀ d d' : Path, d.sameSteps d' = true → f d = f d') (own dirs : List Path) :
    ((own.foldl addDir dirs).map f).find? p = ((dirs ++ own).map f).find? p := by
  induction own generalizing dirs with
  | nil => rw [List.append_nil, List.foldl_nil]
  | cons d own ih =>
    have hsplit : dirs ++ d :: own = (dirs ++ [d]) ++ own := by simp
    rw [List.foldl_cons, ih, hsplit, addDir]
    split
    · rename_i hany
      obtain ⟨d', hd', hsame⟩ := List.any_eq_true.mp hany
      have hthere : [f d] ⊆ dirs.map f := by
        rw [← hf d' d hsame]
        simpa using ⟨d', hd', rfl⟩
      rw [List.map_append, List.map_append, List.map_append, List.map_singleton, List.find?_append,
        List.find?_append, find?_append_of_subset hthere]
    · rfl

variable {r : Resolver} {start : Path} {as : List Path}

/-- The directories along the way up: those of the ancestors, and behind the root the project's. -/
theorem dirsAlong_climb (h : Climb start.normalize as) :
    r.dirsAlong as = r.dirsAlong (ancestors start) ++
      if start.isAbsolute then r.dirsAlong [∅] else [] := by
  rw [h.unique (climb_ancestors start), dirsAlong_append]
  split <;> rfl

/-- From a relative path the way up leads through the project's own directories. -/
theorem own_subset (h : start.isAbsolute = false) :
    r.dirsAlong [∅] ⊆ r.dirsAlong (ancestors start) := by
  have hempty := (climb_ancestors start).empty_mem
  rw [h, if_neg (by simp), List.append_nil] at hempty
  exact r.dirsAlong_subset (by simpa using hempty)

/-- From a relative path the directories along the way up are all that is searched. -/
theorem searchDirs_of_relative (h : Climb start.normalize as) (hrel : start.isAbsolute = false) :
    r.searchDirs start = r.dirsAlong as := by
  rw [searchDirs_eq, foldl_addDir_of_subset (own_subset hrel), dirsAlong_climb h, hrel]
  exact (List.append_nil _).symm

/-- **The search is the way up**, in its order, and leaves out only other spellings. -/
theorem searchDirs_sublist (h : Climb start.normalize as) :
    (r.searchDirs start).Sublist (r.dirsAlong as) ∧
      ∀ dir ∈ r.dirsAlong as, ∃ dir' ∈ r.searchDirs start, dir'.sameSteps dir = true := by
  cases habs : start.isAbsolute with
  | false =>
    rw [searchDirs_of_relative h habs]
    exact ⟨.refl _, fun dir hdir => ⟨dir, hdir, sameSteps_refl dir⟩⟩
  | true =>
    obtain ⟨kept, hfold, hsub, hcover⟩ :=
      exists_foldl_addDir (r.dirsAlong [∅]) (r.dirsAlong (ancestors start))
    rw [searchDirs_eq, dirsAlong_climb h, habs, if_pos rfl, hfold]
    refine ⟨(List.append_sublist_append_left _).mpr hsub, fun dir hdir => ?_⟩
    rcases List.mem_append.mp hdir with hdir | hdir
    · exact ⟨dir, List.mem_append_left _ hdir, sameSteps_refl dir⟩
    · exact hcover dir hdir

theorem isAbsolute_of_mem_dirsAlong {dir : Path} (h : start.isAbsolute = true)
    (hdir : dir ∈ r.dirsAlong (ancestors start)) : dir.isAbsolute = true := by
  obtain ⟨a, ha, hmem⟩ := List.mem_flatMap.mp hdir
  obtain ⟨name, -, rfl⟩ := List.mem_map.mp hmem
  cases hname : (Path.mk name).isAbsolute with
  | true => rw [join_of_isAbsolute hname, hname]
  | false => rw [isAbsolute_join hname, isAbsolute_of_mem_ancestors ha, h]

/-- **All that is on the way up is searched**, if each directory is named in one spelling. -/
theorem mem_searchDirs_iff (hs : r.settings.SpelledOnce) (h : Climb start.normalize as)
    {dir : Path} : dir ∈ r.searchDirs start ↔ dir ∈ r.dirsAlong as := by
  refine ⟨fun hdir => (searchDirs_sublist h).1.subset hdir, fun hdir => ?_⟩
  cases habs : start.isAbsolute with
  | false => rwa [searchDirs_of_relative h habs]
  | true =>
    have hown {d : Path} (hd : d ∈ r.dirsAlong [∅]) :
        ∃ name ∈ r.settings.dependencyDirs, d = ⟨name⟩ := by
      obtain ⟨name, hname, rfl⟩ := List.mem_map.mp (dirsAlong_empty r ▸ hd)
      exact ⟨name, hname, rfl⟩
    obtain ⟨kept, hfold, hsub, hcover⟩ :=
      exists_foldl_addDir (r.dirsAlong [∅]) (r.dirsAlong (ancestors start))
    rw [searchDirs_eq, hfold]
    rw [dirsAlong_climb h, habs, if_pos rfl] at hdir
    rcases List.mem_append.mp hdir with hdir | hdir
    · exact List.mem_append_left _ hdir
    · obtain ⟨name, hname, rfl⟩ := hown hdir
      obtain ⟨dir', hdir', hsame⟩ := hcover _ hdir
      rcases List.mem_append.mp hdir' with hup | hkept
      · -- of an absolute name every directory has the same one
        have habsolute : (Path.mk name).isAbsolute = true := by
          rw [← root_mem_components_iff, ← beq_iff_eq.mp hsame, root_mem_components_iff]
          exact isAbsolute_of_mem_dirsAlong habs hup
        obtain ⟨a, ha, -⟩ := List.mem_flatMap.mp hup
        refine List.mem_append_left _ (List.mem_flatMap.mpr ⟨a, ha, List.mem_map.mpr ?_⟩)
        exact ⟨name, hname, join_of_isAbsolute habsolute a⟩
      · obtain ⟨name', hname', rfl⟩ := hown (hsub.subset hkept)
        rw [← hs name' hname' name hname hsame]
        exact List.mem_append_right _ hkept

/-- Behind the root a second spelling is left out. -/
example : searchDirs ⟨MemoryFiles.empty.view, .disabled, { dependencyDirs := ["lib", "lib/"] }⟩
    ⟨"/a"⟩ = [⟨"/a/lib"⟩, ⟨"/a/lib/"⟩, ⟨"/lib"⟩, ⟨"/lib/"⟩, ⟨"lib"⟩] := by
  decide +kernel

/-- **The first file** along the way up is the first file of all that are searched. -/
theorem firstFile?_dependencyCandidates (h : Climb start.normalize as) (raw : String) :
    r.firstFile? ((start.join ⟨raw⟩).normalize :: r.dependencyCandidates start raw) =
      r.firstFile? ((start.join ⟨raw⟩).normalize ::
        (r.dirsAlong as).map fun dir => (dir.join ⟨raw⟩).normalize) := by
  have hfind : (r.dependencyCandidates start raw).find? r.view.isFile =
      ((r.dirsAlong as).map fun dir => (dir.join ⟨raw⟩).normalize).find? r.view.isFile := by
    cases habs : start.isAbsolute with
    | false => rw [dependencyCandidates, searchDirs_of_relative h habs]
    | true =>
      rw [dependencyCandidates, searchDirs_eq, dirsAlong_climb h, habs, if_pos rfl,
        find?_foldl_addDir fun d d' hsame => normalize_join_congr hsame _]
  rw [firstFile?, firstFile?, List.find?_cons, List.find?_cons, hfind]

/-- A file is found at the first place that has one. -/
theorem firstFile?_eq_some_iff (r : Resolver) {candidates : List Path} {q : Path} :
    r.firstFile? candidates = some (.file q) ↔
      ∃ before after, candidates = before ++ q :: after ∧
        r.view.isFile q = true ∧ ∀ x ∈ before, r.view.isFile x = false := by
  have hmap : r.firstFile? candidates = some (.file q) ↔
      candidates.find? r.view.isFile = some q := by
    rw [firstFile?, Option.map_eq_some_iff]
    constructor
    · rintro ⟨x, hx, hq⟩
      cases hq
      exact hx
    · intro hq
      exact ⟨q, hq, rfl⟩
  rw [hmap, List.find?_eq_some_iff_append]
  constructor
  · rintro ⟨hq, before, after, hsplit, hbefore⟩
    exact ⟨before, after, hsplit, hq, by simpa using hbefore⟩
  · rintro ⟨before, after, hsplit, hq, hbefore⟩
    exact ⟨hq, before, after, hsplit, by simpa using hbefore⟩

theorem isRelative_iff {raw : String} : ImportKind.of raw = .relative ↔
    (startsRelative raw || raw.toList.head? == some '/') = true := by
  unfold ImportKind.of
  split
  · rename_i h
    exact iff_of_true rfl h
  · rename_i h
    refine iff_of_false ?_ h
    split <;> simp

end Resolver

namespace RemoteRef

/-! ## Remote references -/

/-- `Spells raw owner repo path`: `raw` is `github.com/owner/repo/path`, with or without a scheme
and `www.` in front. -/
def Spells (raw : String) (owner repo path : List Char) : Prop :=
  owner ≠ [] ∧ '/' ∉ owner ∧ repo ≠ [] ∧ '/' ∉ repo ∧
    ∃ scheme ∈ ["", "https://", "http://"], ∃ www ∈ ["", "www."],
      raw.toList = scheme.toList ++ (www.toList ++ ("github.com/".toList ++
        (owner ++ '/' :: (repo ++ '/' :: path))))

theorem segment?_eq_some_iff {cs name rest : List Char} :
    segment? cs = some (name, rest) ↔ name ≠ [] ∧ '/' ∉ name ∧ cs = name ++ '/' :: rest := by
  constructor
  · intro h
    have happend := eq_append_of_segment? h
    have hslash : '/' ∉ cs.takeWhile (· != '/') := fun hmem => by
      simpa using List.mem_takeWhile_imp hmem
    unfold segment? spanOf at h
    split at h
    · cases h
    · rename_i hempty hspan
      cases h
      rw [(Prod.mk.inj hspan).1] at hslash
      exact ⟨hempty, hslash, happend⟩
    · cases h
  · rintro ⟨hne, hslash, rfl⟩
    have hall : ∀ c ∈ name, (c != '/') = true := fun c hc => by
      simpa using ne_of_mem_of_not_mem hc hslash
    have hspan : spanOf (· != '/') (name ++ '/' :: rest) = (name, '/' :: rest) := by
      rw [spanOf, List.takeWhile_append_of_pos hall, List.dropWhile_append_of_pos hall]
      simp
    unfold segment?
    rw [hspan]
    cases name with
    | nil => exact absurd rfl hne
    | cons c name => rfl

/-- The scheme and `www.` are left behind, if they are there. -/
theorem optional_skipScheme_iff {cs rest : List Char} :
    optional "www." (skipScheme cs) = 'g' :: rest ↔
      ∃ scheme ∈ ["", "https://", "http://"], ∃ www ∈ ["", "www."],
        cs = scheme.toList ++ (www.toList ++ 'g' :: rest) := by
  constructor
  · intro h
    have hwww : ∃ www ∈ ["", "www."], skipScheme cs = www.toList ++ 'g' :: rest := by
      rcases optional_cases "www." (skipScheme cs) with ho | ho
      · exact ⟨"", by simp, ho.symm.trans h⟩
      · exact ⟨"www.", by simp, by rw [← h]; exact ho⟩
    obtain ⟨www, hmem, hwww⟩ := hwww
    rcases skipScheme_cases cs with hs | hs | hs <;> rw [hwww] at hs
    · exact ⟨"", by simp, www, hmem, hs.symm⟩
    · exact ⟨"https://", by simp, www, hmem, hs⟩
    · exact ⟨"http://", by simp, www, hmem, hs⟩
  · rintro ⟨scheme, hscheme, www, hwww, rfl⟩
    simp only [List.mem_cons, List.not_mem_nil, or_false] at hscheme hwww
    rcases hscheme with rfl | rfl | rfl <;> rcases hwww with rfl | rfl <;> rfl

/-- **What is read as a reference.** -/
theorem parse?_eq_some_iff {raw : String} {ref : RemoteRef} :
    parse? raw = some ref ↔ ∃ owner repo path, Spells raw owner repo path ∧
      ref = ⟨String.ofList (owner ++ '/' :: repo),
        (Path.mk (String.ofList (path.takeWhile (· != '\n')))).normalize⟩ := by
  simp only [parse?, Option.bind_eq_bind, Option.bind_eq_some_iff, Option.pure_def,
    Option.some.injEq, Prod.exists, literal_eq_some, segment?_eq_some_iff]
  constructor
  · rintro ⟨_, hraw, owner, _, ⟨hone, hos, rfl⟩, repo, path, ⟨hrne, hrs, rfl⟩, rfl⟩
    exact ⟨owner, repo, path, ⟨hone, hos, hrne, hrs, optional_skipScheme_iff.mp hraw⟩, rfl⟩
  · rintro ⟨owner, repo, path, ⟨hone, hos, hrne, hrs, hraw⟩, rfl⟩
    exact ⟨_, optional_skipScheme_iff.mpr hraw, owner, _, ⟨hone, hos, rfl⟩, repo, path,
      ⟨hrne, hrs, rfl⟩, rfl⟩

/-- A reference starts neither with a dot nor with a slash. -/
theorem parse?_of_relative {raw : String} (h : ImportKind.of raw = .relative) :
    parse? raw = none := by
  rw [Option.eq_none_iff_forall_ne_some]
  intro ref href
  obtain ⟨owner, repo, path, ⟨-, -, -, -, scheme, hscheme, www, hwww, hraw⟩, -⟩ :=
    parse?_eq_some_iff.mp href
  have hno : (startsRelative raw || raw.toList.head? == some '/') = false := by
    simp only [List.mem_cons, List.not_mem_nil, or_false] at hscheme hwww
    unfold startsRelative
    rw [hraw]
    rcases hscheme with rfl | rfl | rfl <;> rcases hwww with rfl | rfl <;> rfl
  rw [Resolver.isRelative_iff, hno] at h
  cases h

end RemoteRef

namespace Resolver

/-- Where an import of a local file is found: at the first place with a file, or else where it names
a remote file. -/
theorem locate_eq (r : Resolver) {p : Path} {as : List Path}
    (h : Climb p.directory.normalize as) (raw : String) :
    r.locate (.file p) raw =
      (r.firstFile? (r.places p.directory as raw)).or ((RemoteRef.parse? raw).map .remote) := by
  have hsearch := firstFile?_dependencyCandidates (r := r) h raw
  unfold locate places
  cases hkind : ImportKind.of raw with
  | relative =>
    rw [if_pos (isRelative_iff.mp hkind), RemoteRef.parse?_of_relative hkind, Option.map_none,
      Option.or_none]
    rfl
  | dependencyRoot =>
    have hother : ¬ ImportKind.of raw = .relative := by simp [hkind]
    have hparse : RemoteRef.parse? raw = none := by
      unfold ImportKind.of at hkind
      split at hkind
      · cases hkind
      · split at hkind
        · cases hkind
        · rename_i hnone
          simpa using hnone
    rw [if_neg (mt isRelative_iff.mpr hother), ← hsearch, hparse, Option.map_none, Option.or_none]
    rfl
  | remoteRepository =>
    have hother : ¬ ImportKind.of raw = .relative := by simp [hkind]
    rw [if_neg (mt isRelative_iff.mpr hother), ← hsearch]
    rfl

/-- **The search order.** The way up ends for every path, and the dependency directories along it
are those that are searched, in this order. From a relative path they are all of them; from an
absolute one only other spellings of directories that are searched are left out, so none if each is
named in one spelling. From a normal form it starts at the directory itself. An import of a local
file is located at the first of its places at which there is a file, and at no other one. If there
is none, it is located where it names a remote file, and nowhere if it names none. -/
theorem locate_searches (r : Resolver) (p : Path) (raw : String) :
    (∀ start : Path, ∃ as, Climb start.normalize as ∧
      (r.searchDirs start).Sublist (r.dirsAlong as) ∧
      (∀ dir ∈ r.dirsAlong as, ∃ dir' ∈ r.searchDirs start, dir'.sameSteps dir = true) ∧
      (start.isAbsolute = false → r.searchDirs start = r.dirsAlong as) ∧
      (r.settings.SpelledOnce → ∀ dir, dir ∈ r.searchDirs start ↔ dir ∈ r.dirsAlong as)) ∧
    (p.normalize = p → p.directory.normalize = p.directory) ∧
    (∀ as, Climb p.directory.normalize as →
      (∀ q, r.locate (.file p) raw = some (.file q) ↔
        ∃ before after, r.places p.directory as raw = before ++ q :: after ∧
          r.view.isFile q = true ∧ ∀ x ∈ before, r.view.isFile x = false) ∧
      ((∀ x ∈ r.places p.directory as raw, r.view.isFile x = false) →
        r.locate (.file p) raw = (RemoteRef.parse? raw).map .remote)) ∧
    ∀ ref, RemoteRef.parse? raw = some ref ↔
      ∃ owner repo path, RemoteRef.Spells raw owner repo path ∧
        ref = ⟨String.ofList (owner ++ '/' :: repo),
          (Path.mk (String.ofList (path.takeWhile (· != '\n')))).normalize⟩ := by
  refine ⟨fun start => ?_, normalize_directory, fun as has => ⟨fun q => ?_, fun hnone => ?_⟩,
    fun ref => RemoteRef.parse?_eq_some_iff⟩
  · have has := climb_ancestors start
    obtain ⟨hsub, hcover⟩ := searchDirs_sublist (r := r) has
    exact ⟨_, has, hsub, hcover, searchDirs_of_relative has,
      fun hs dir => mem_searchDirs_iff hs has⟩
  · rw [r.locate_eq has, ← r.firstFile?_eq_some_iff, Option.or_eq_some_iff,
      or_iff_left_of_imp]
    -- a remote file is no local one
    rintro ⟨-, hremote⟩
    obtain ⟨ref, -, href⟩ := Option.map_eq_some_iff.mp hremote
    cases href
  · have hfirst : r.firstFile? (r.places p.directory as raw) = none := by
      rw [firstFile?, List.find?_eq_none.mpr (by simpa using hnone), Option.map_none]
    rw [r.locate_eq has, hfirst, Option.none_or]

end Resolver

end ContractBuild
