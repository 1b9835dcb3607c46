import ContractBuild.Proofs.Collection.Spellings
import ContractBuild.Proofs.Run.Provenance
import ContractBuild.Proofs.Sandbox.Manifests

/-!
# Which units are written over each other

A project has one file for each path, but a unit is a name, and names can lead to one path. What the
units of a run are named like leaves three ways in which that can happen.

- **Names below the project** (`unitNames_cases`): a unit is written below the directory that units
  of its kind start from, or one level above it. In the first case the path tells the kind of the
  unit and its normal form.
- **Units with one normal form** (`clash_cases`): if they do not belong to packages, one of them is
  the root, and its name is no normal form. If they do, one of them is read as a reference to a
  remote repository.
- **Files of the project** (`unitPath_eq_join_iff`): a unit is written to one of them if it steps
  out of `contracts` to it.
- **Requests of a run** (`collected_of_build`): a build is asked for with the units that are
  collected for the root.

Main statement: `layOut_separates`. Units that step out are written over others, and over the
manifest of the project (`units_written_over`).
-/

namespace ContractBuild

open Solidity ContractBuild.Path OnDisk

namespace Sandbox

/-! ## Names below the project -/

theorem isAbsolute_of_unitNames {unit : String} {package : Bool} {names : List String}
    (h : unitNames unit package = .ok names) : (Path.mk unit).isAbsolute = false := by
  rw [Bool.eq_false_iff, ne_eq, ← root_mem_components_iff]
  intro hroot
  obtain ⟨e, he⟩ := (descend_error_iff (floor_le package)).mpr (.inl hroot)
  rw [unitNames, he] at h
  cases h

/-- **Where a unit is written**: below the directory that units of its kind start from, or one level
above it if the unit does not belong to a package and steps out. -/
theorem unitNames_cases {unit : String} {package : Bool} {names : List String}
    (h : unitNames unit package = .ok names) : ∃ below : List String,
      ((Path.mk unit).trail.reverse = below.map .name ∧ names = base package :: below) ∨
      (package = false ∧ (Path.mk unit).trail.reverse = .up :: below.map .name ∧
        names = below) := by
  have hrel := isAbsolute_of_unitNames h
  obtain ⟨-, -, hsteps, -⟩ := unitNames_ok h
  obtain ⟨back, k, htrail⟩ := exists_names hrel
  have hroot : .root ∉ (Path.mk unit).components := by
    rw [root_mem_components_iff, hrel]
    exact Bool.false_ne_true
  have hfold : names.map Component.name = ((List.replicate k Component.up).foldl follow
      [.name (base package)]).reverse ++ back.reverse.map .name := by
    have hfolded := foldl_reverse_foldl hroot [Component.name (base package)]
    rw [← trail, htrail, foldl_follow_reverse] at hfolded
    rw [hsteps, resolve, List.foldl_cons]
    show (List.foldl follow [Component.name (base package)] _).reverse = _
    rw [← hfolded, List.reverse_append, List.map_reverse]
  have hreverse : (Path.mk unit).trail.reverse =
      List.replicate k .up ++ back.reverse.map .name := by
    rw [htrail, List.reverse_append, List.reverse_replicate, List.map_reverse]
  refine ⟨back.reverse, ?_⟩
  have hinj {a b : List String} (hab : a.map Component.name = b.map .name) : a = b :=
    (List.map_inj_right fun _ _ => Component.name.inj).mp hab
  rcases k with _ | _ | k
  · exact .inl ⟨hreverse, hinj hfold⟩
  · refine .inr ⟨?_, hreverse, hinj hfold⟩
    by_contra hpackage
    obtain ⟨s, rest, -, hinside⟩ := unitNames_package (by simpa [hpackage] using h)
    exact absurd (hinside.trans hreverse) (by simp)
  · -- with two parent steps more the unit would have to leave the project
    have hroot : .root ∉ [Component.name (base package)] := by simp
    rcases foldl_follow_ups (k + 2) hroot with ⟨hk, -⟩ | ⟨after, hafter, -⟩
    · simp at hk
    · have hup : Component.up ∈ names.map Component.name := by
        rw [hfold, hafter]
        simp
      simp at hup

/-- The names that lead to a unit are the steps to it from the directory that it starts from, when
parent steps are folded. -/
theorem normalize_join_base {unit : String} {package : Bool} {names : List String}
    (h : unitNames unit package = .ok names) :
    ((Path.mk (base package)).join ⟨unit⟩).normalize = ofComponents (names.map .name) := by
  have hrel := isAbsolute_of_unitNames h
  obtain ⟨-, -, hsteps, -⟩ := unitNames_ok h
  have hbase : (Path.mk (base package)).trail = [.name (base package)] := by
    rw [trail, components_name (isPlain_base package)]
    rfl
  rw [normalize_eq, trail_join hrel, hbase, hsteps, resolve, List.foldl_cons]
  show ofComponents (List.foldl follow [Component.name (base package)] _).reverse =
    ofComponents (List.foldl follow [Component.name (base package)] _).reverse
  rw [foldl_components, hrel, if_neg Bool.false_ne_true]

/-- A name that is written relative to its importer starts with a dot or a parent step. -/
theorem components_of_startsRelative {name : String} (h : startsRelative name = true) :
    ∃ rest, (Path.mk name).components = .here :: rest ∨
      (Path.mk name).components = .up :: rest := by
  rw [startsRelative, Bool.or_eq_true] at h
  rcases h with h | h
  · obtain ⟨rest, hrest⟩ := List.isPrefixOf_iff_prefix.mp h
    have hrel : (Path.mk name).isAbsolute = false := by simp [isAbsolute, ← hrest]
    refine ⟨(Path.segments rest).filterMap step?, .inl ?_⟩
    rw [components_of_relative hrel, ← hrest]
    exact congrArg relativeSteps (segments_append_slash ['.'] rest)
  · obtain ⟨rest, hrest⟩ := List.isPrefixOf_iff_prefix.mp h
    have hrel : (Path.mk name).isAbsolute = false := by simp [isAbsolute, ← hrest]
    refine ⟨(Path.segments rest).filterMap step?, .inr ?_⟩
    rw [components_of_relative hrel, ← hrest]
    exact congrArg relativeSteps (segments_append_slash ['.', '.'] rest)

/-- A unit of a package that has a place is not looked for beside the root only. -/
theorem kind_of_package {l : UnitLookup} {unit : String} {below : List String}
    (hspelled : l.Spelled unit true) (hne : unit ≠ l.rootUnit)
    (htrail : (Path.mk unit).trail.reverse = below.map .name) : ImportKind.of unit ≠ .relative := by
  have hrel : (Path.mk unit).isAbsolute = false := isAbsolute_of_resolve htrail.symm
  have hnot : startsRelative unit = false := by
    rcases hspelled with hroot | hnormal | ⟨hnot, -⟩
    · exact absurd hroot hne
    · rw [Bool.eq_false_iff]
      intro hstarts
      obtain ⟨rest, hrest⟩ := components_of_startsRelative hstarts
      rw [components_eq_trail hnormal, htrail] at hrest
      rcases hrest with hrest | hrest <;> cases below <;> simp at hrest
    · exact hnot
  have hhead : (unit.toList.head? == some '/') = false := hrel
  rw [ImportKind.of, hnot, hhead]
  split
  · rename_i hfalse
    cases hfalse
  · split <;> simp

/-- The units of a request, and what they are made from. -/
theorem get?_request {settings : RunSettings} {carried : List FailureClass} {c : Collected}
    {unit text : String}
    (h : (c.request settings carried).sources.get? unit = some text) :
    ∃ found, c.sources.get? unit = some found ∧ text = (settings.prepare carried found).text := by
  obtain ⟨before, after, hentries, -⟩ := Dict.get?_ofList.mp h
  have hmem : (unit, text) ∈ c.sources.entries.map fun u =>
      (u.1, (settings.prepare carried u.2).text) := by
    rw [hentries]
    simp
  obtain ⟨⟨name, found⟩, hfound, heq⟩ := List.mem_map.mp hmem
  cases heq
  exact ⟨found, Dict.get?_eq_some_iff.mpr hfound, rfl⟩

theorem base_inj {package package' : Bool} (h : base package = base package') :
    package = package' := by
  revert h
  cases package <;> cases package' <;> decide

/-- **Why two collected units with different texts share a path.** One of them steps out of
`contracts`; or both belong to packages, and one is read as a remote reference; or none does, and
one is the root, whose name is no normal form. -/
theorem clash_cases {l : UnitLookup} {n : Nat} {c : Collected} (hc : l.run n l.start = .ok c)
    {u v text text' : String} (hu : c.sources.get? u = some text)
    (hv : c.sources.get? v = some text') (htext : text ≠ text') {names : List String}
    (hnu : unitNames u (c.packages.contains u) = .ok names)
    (hnv : unitNames v (c.packages.contains v) = .ok names) :
    (c.packages.contains u = false ∧ .up ∈ (Path.mk u).normalize.components) ∨
    (c.packages.contains v = false ∧ .up ∈ (Path.mk v).normalize.components) ∨
    (c.packages.contains u = true ∧ c.packages.contains v = true ∧
      (Path.mk u).normalize = (Path.mk v).normalize ∧
      (ImportKind.of u = .remoteRepository ∨ ImportKind.of v = .remoteRepository)) ∨
    (c.packages.contains u = false ∧ c.packages.contains v = false ∧
      (Path.mk u).normalize = (Path.mk v).normalize ∧
      (Path.mk l.rootUnit).normalize ≠ ⟨l.rootUnit⟩ ∧ (u = l.rootUnit ∨ v = l.rootUnit)) := by
  have hclimbs {w : String} {below : List String}
      (h : (Path.mk w).trail.reverse = .up :: below.map .name) :
      .up ∈ (Path.mk w).normalize.components := by
    rw [components_normalize]
    show _ ∈ (Path.mk w).trail.reverse
    rw [h]
    exact List.mem_cons_self
  obtain ⟨below, ⟨htu, hbelow⟩ | ⟨hpu, htu, -⟩⟩ := unitNames_cases hnu
  swap
  · exact .inl ⟨hpu, hclimbs htu⟩
  obtain ⟨below', ⟨htv, hbelow'⟩ | ⟨hpv, htv, -⟩⟩ := unitNames_cases hnv
  swap
  · exact .inr (.inl ⟨hpv, hclimbs htv⟩)
  -- both start from their own directory, so the directories and what is below them agree
  obtain ⟨hbase, rfl⟩ := List.cons.inj (hbelow.symm.trans hbelow')
  have htrail : (Path.mk u).trail = (Path.mk v).trail :=
    List.reverse_inj.mp (htu.trans htv.symm)
  have hnormalize := normalize_eq_of_trail htrail
  have hpackage : c.packages.contains u = c.packages.contains v := base_inj hbase
  have hfound {w t : String} (hw : c.sources.get? w = some t) :
      l.Spelled w (c.packages.contains w) ∧ l.find w = .ok t := by
    refine ⟨UnitLookup.spelled_of_run hc ?_, ((UnitLookup.get?_of_run hc w t).mp hw).2⟩
    rw [Dict.contains_eq_isSome_get?, hw]
    rfl
  obtain ⟨hsu, hfu⟩ := hfound hu
  obtain ⟨hsv, hfv⟩ := hfound hv
  refine .inr (.inr ?_)
  cases hp : c.packages.contains u with
  | true =>
    rw [hp] at hpackage hsu
    rw [← hpackage] at hsv
    refine .inl ⟨rfl, hpackage.symm, hnormalize, ?_⟩
    have hneu := (UnitLookup.packages_collected hc hp).2
    have hnev := (UnitLookup.packages_collected hc hpackage.symm).2
    have hku := kind_of_package hsu hneu htu
    have hkv := kind_of_package hsv hnev htv
    by_contra hremote
    rw [not_or] at hremote
    refine htext (UnitLookup.find_congr (isAbsolute_of_unitNames hnu) (isAbsolute_of_unitNames hnv)
      htrail ?_ ?_ hneu hnev hfu hfv)
    · cases hk : ImportKind.of u with
      | dependencyRoot => rfl
      | relative => exact absurd hk hku
      | remoteRepository => exact absurd hk hremote.1
    · cases hk : ImportKind.of v with
      | dependencyRoot => rfl
      | relative => exact absurd hk hkv
      | remoteRepository => exact absurd hk hremote.2
  | false =>
    rw [hp] at hpackage hsu
    rw [← hpackage] at hsv
    have hnormal {w : String} (hs : l.Spelled w false) (hrel : (Path.mk w).isAbsolute = false) :
        w = l.rootUnit ∨ (Path.mk w).normalize = ⟨w⟩ :=
      hs.imp_right (Or.resolve_right · fun h => by rw [hrel] at h; cases h.2 rfl)
    have hsame : ¬ ((Path.mk u).normalize = ⟨u⟩ ∧ (Path.mk v).normalize = ⟨v⟩) := by
      rintro ⟨hun, hvn⟩
      obtain rfl : u = v := congrArg Path.text (hun.symm.trans (hnormalize.trans hvn))
      exact htext (Option.some.inj (hu.symm.trans hv))
    have hnu' := hnormal hsu (isAbsolute_of_unitNames hnu)
    have hnv' := hnormal hsv (isAbsolute_of_unitNames hnv)
    refine .inr ⟨rfl, hpackage.symm, hnormalize, fun hroot => hsame ⟨?_, ?_⟩, ?_⟩
    · exact hnu'.elim (fun h => h ▸ hroot) id
    · exact hnv'.elim (fun h => h ▸ hroot) id
    · by_contra hneither
      rw [not_or] at hneither
      exact hsame ⟨hnu'.resolve_left hneither.1, hnv'.resolve_left hneither.2⟩

/-- **Which units are written to a file of the project**: those that step out of `contracts` to
it. -/
theorem unitPath_eq_join_iff {dir : Path} {unit s : String} {package : Bool} {names : List String}
    (h : unitNames unit package = .ok names) (hs : IsPlain (.name s)) (hbase : s ≠ base package) :
    unitPath dir unit package = .ok (dir.join ⟨s⟩) ↔
      package = false ∧ (Path.mk unit).normalize = ⟨"../" ++ s⟩ := by
  have hup : IsPlain .up := by
    unfold IsPlain
    decide
  have hplain : ∀ c ∈ [Component.up, .name s], IsPlain c := by simp [hup, hs]
  have hspelled : ofComponents [.up, .name s] = ⟨"../" ++ s⟩ := by
    rw [ofComponents_of_isPlain hplain]
    refine congrArg Path.mk (String.toList_inj.mp ?_)
    simp [slashed, List.intercalate, Component.text]
  have hnormal : (Path.mk unit).normalize = ⟨"../" ++ s⟩ ↔
      (Path.mk unit).trail.reverse = [.up, .name s] := by
    rw [← hspelled]
    refine ⟨fun he => ?_, fun he => by rw [normalize_eq, he]⟩
    rw [← components_ofComponents hplain, ← he, components_normalize]
    rfl
  have hpath : unitPath dir unit package = .ok (dir.join ⟨s⟩) ↔ names = [s] := by
    have hone : ∀ t ∈ [s], IsPlain (.name t) := by simpa using hs
    have hok : unitPath dir unit package = .ok (names.foldl (fun p s => p.join ⟨s⟩) dir) := by
      rw [unitPath, h]
      rfl
    rw [hok, Except.ok.injEq]
    exact ⟨fun he => foldl_join_inj (unitNames_ok h).2.1 hone he, fun he => by rw [he]; rfl⟩
  rw [hpath, hnormal]
  obtain ⟨below, ⟨htrail, rfl⟩ | ⟨hpackage, htrail, rfl⟩⟩ := unitNames_cases h
  · refine iff_of_false (fun he => hbase (List.cons.inj he).1.symm) ?_
    rintro ⟨-, he⟩
    rw [htrail] at he
    cases below <;> simp at he
  · rw [htrail, List.cons_inj_right, and_iff_right hpackage]
    exact ⟨fun he => by rw [he]; rfl, fun he =>
      (List.map_inj_right fun _ _ => Component.name.inj).mp (he : _ = [s].map Component.name)⟩

/-! ## Requests of a run -/

/-- Every build that a run asks for is made from the units that are collected for its root. -/
theorem collected_of_build {σ : Type} {settings : RunSettings} {surroundings : Surroundings σ}
    {root : Path} {state : σ} {request : SandboxRequest} {answer : Except SandboxError ArtifactMap}
    (h : .build request answer ∈
      (orchestrate settings surroundings.recorded root (state, [])).2.2) :
    ∃ (now : σ) (carried : List FailureClass) (c : Collected),
      (UnitLookup.ofRoot (surroundings.resolver now) root).collect = .ok c ∧
      request = c.request settings carried := by
  obtain ⟨res, p, hrun, horch, -⟩ := orchestrate_recorded_cases settings surroundings root state
  have hbegin : Run.Account settings [] (.begin surroundings.recorded (state, [])) :=
    ⟨rfl, ⟨List.nodup_nil, nofun⟩, fun _ => rfl⟩
  obtain ⟨visits, p₁, hvisits, hacc⟩ := Run.all_visits hbegin hrun
  rw [horch] at h
  have hinvoked : .build request answer ∈ invocations p.state.2 := List.mem_filter.mpr ⟨h, rfl⟩
  rw [hacc.invocations] at hinvoked
  obtain ⟨x, hx, hbuild⟩ := List.mem_flatMap.mp hinvoked
  obtain ⟨earlier, later, hsplit⟩ := List.append_of_mem hx
  obtain ⟨-, p₂, -, -, -, hsound⟩ := hvisits.sound hsplit
  rcases x with ⟨q, carried, ⟨s, ts⟩ | ⟨c, answer'⟩⟩
  · obtain ⟨t, -, ht⟩ := List.mem_map.mp hbuild
    cases ht
  · cases List.mem_singleton.mp hbuild
    exact ⟨p₂.state.1, carried, c, hsound.work, rfl⟩

/-- A root whose name is no normal form is a reference to a remote repository. -/
theorem exists_ref_of_rootUnit {r : Resolver} {root : Path}
    (h : (Path.mk (UnitLookup.ofRoot r root).rootUnit).normalize ≠
      ⟨(UnitLookup.ofRoot r root).rootUnit⟩) :
    ∃ ref, RemoteRef.parse? root.text = some ref ∧
      (UnitLookup.ofRoot r root).rootUnit = ref.id := by
  cases href : RemoteRef.parse? root.text with
  | some ref =>
    have hbase : (UnitLookup.ofRoot r root).base = .remote ref := by
      rw [UnitLookup.ofRoot, Resolver.rootLocation, href]
    refine ⟨ref, rfl, ?_⟩
    rw [UnitLookup.rootUnit, hbase]
  | none =>
    have hbase : (UnitLookup.ofRoot r root).base =
        .file ((root.stripPrefix? r.view.root).getD root).normalize := by
      rw [UnitLookup.ofRoot, Resolver.rootLocation, href, Location.ofPath]
    exact absurd (UnitLookup.normalize_rootUnit hbase (normalize_normalize _)) h

theorem ne_base_of_projectFile {solcVersion : String} {config : CompilerConfig}
    {f : String × String} (h : f ∈ projectFiles solcVersion config) (package : Bool) :
    f.1 ≠ base package := by
  rcases List.mem_cons.mp h with rfl | h
  · cases package <;> decide
  · rw [List.mem_singleton.mp h]
    show "hardhat.config.js" ≠ base package
    cases package <;> decide

/-- **Which files of a project are written over.** For every build that a run asks for, whatever the
sources and the settings, and every project that is laid out for it without an error:

- Every unit has a path, and units share one exactly if their steps lead to the same place from the
  directory that they start from.
- If two units with different texts share a path, one of them does not belong to a package and steps
  out of `contracts`; or both belong to packages, have one normal form, and one is read as a
  reference to a remote repository; or none belongs to a package, they have one normal form, and one
  is the root, which is such a reference.
- A path holds the text of the last unit that it belongs to, in the order of names. So a unit that
  shares its path with no other is there in the end.
- A file of the project is written over exactly by a unit that does not belong to a package and
  whose normal form is one parent step and the name of the file. If there is none, the file is there
  in the end. -/
theorem layOut_separates {σ : Type} (settings : RunSettings) (surroundings : Surroundings σ)
    (root : Path) (state : σ) (request : SandboxRequest) (answer : Except SandboxError ArtifactMap)
    (dir : Path) (solcVersion : String) (d d' : Disk)
    (hbuild : .build request answer ∈
      (orchestrate settings surroundings.recorded root (state, [])).2.2)
    (hlay : exec (layOut dir solcVersion request) d = (.ok (), d')) :
    let isPackage (u : String) := request.packages.contains u
    let path (u : String) := unitPath dir u (isPackage u)
    let place (u : String) := ((Path.mk (base (isPackage u))).join ⟨u⟩).normalize
    (∀ u, request.sources.contains u = true → ∃ p, path u = .ok p) ∧
    (∀ u v, request.sources.contains u = true → request.sources.contains v = true →
      (path u = path v ↔ place u = place v)) ∧
    (∀ u v text text', request.sources.get? u = some text →
      request.sources.get? v = some text' → text ≠ text' → path u = path v →
      (isPackage u = false ∧ .up ∈ (Path.mk u).normalize.components) ∨
      (isPackage v = false ∧ .up ∈ (Path.mk v).normalize.components) ∨
      (isPackage u = true ∧ isPackage v = true ∧
        (Path.mk u).normalize = (Path.mk v).normalize ∧
        (ImportKind.of u = .remoteRepository ∨ ImportKind.of v = .remoteRepository)) ∨
      (isPackage u = false ∧ isPackage v = false ∧
        (Path.mk u).normalize = (Path.mk v).normalize ∧
        ∃ ref, RemoteRef.parse? root.text = some ref ∧ (u = ref.id ∨ v = ref.id))) ∧
    (∀ u text, request.sources.get? u = some text →
      (∀ v, request.sources.contains v = true → u < v → path v ≠ path u) →
      ∃ p, path u = .ok p ∧ d'.readText p = .ok text) ∧
    ∀ f ∈ projectFiles solcVersion request.config,
      (∀ u, request.sources.contains u = true → (path u = .ok (dir.join ⟨f.1⟩) ↔
        isPackage u = false ∧ (Path.mk u).normalize = ⟨"../" ++ f.1⟩)) ∧
      ((∀ u, request.sources.contains u = true → path u ≠ .ok (dir.join ⟨f.1⟩)) →
        d'.readText (dir.join ⟨f.1⟩) = .ok f.2) := by
  intro isPackage path place
  obtain ⟨now, carried, c, hcollect, hrequest⟩ := collected_of_build hbuild
  obtain ⟨hpaths, hlast, hproject⟩ := layOut_ok hlay
  have hnames {u : String} (hu : request.sources.contains u = true) :
      ∃ names, unitNames u (isPackage u) = .ok names ∧ (∀ s ∈ names, IsPlain (.name s)) ∧
        path u = .ok (names.foldl (fun p s => p.join ⟨s⟩) dir) ∧
        place u = ofComponents (names.map .name) := by
    obtain ⟨e, he, rfl⟩ := List.mem_map.mp (Dict.mem_keys_of_contains hu)
    obtain ⟨p, hp⟩ := hpaths e he
    obtain ⟨names, hnames, -, hplain, rfl⟩ := unitPath_ok hp
    exact ⟨names, hnames, hplain, hp, normalize_join_base hnames⟩
  have hcontains {u text : String} (hu : request.sources.get? u = some text) :
      request.sources.contains u = true := by
    rw [Dict.contains_eq_isSome_get?, hu]
    rfl
  refine ⟨fun u hu => ?_, fun u v hu hv => ?_, fun u v text text' hu hv htext hpath => ?_,
    fun u text hu hafter => ?_, fun f hf => ⟨fun u hu => ?_, fun hfree => ?_⟩⟩
  · obtain ⟨names, -, -, hpath, -⟩ := hnames hu
    exact ⟨_, hpath⟩
  · obtain ⟨names, -, hplain, hpath, hplace⟩ := hnames hu
    obtain ⟨names', -, hplain', hpath', hplace'⟩ := hnames hv
    rw [hpath, hpath', hplace, hplace', Except.ok.injEq]
    refine ⟨fun he => by rw [foldl_join_inj hplain hplain' he], fun he => ?_⟩
    have hsteps := congrArg components he
    have hall {names : List String} (h : ∀ s ∈ names, IsPlain (.name s)) :
        ∀ c ∈ names.map Component.name, IsPlain c := by simpa using h
    rw [components_ofComponents (hall hplain), components_ofComponents (hall hplain')] at hsteps
    rw [(List.map_inj_right fun _ _ => Component.name.inj).mp hsteps]
  · obtain ⟨names, hnu, hplain, hpu, -⟩ := hnames (hcontains hu)
    obtain ⟨names', hnv, hplain', hpv, -⟩ := hnames (hcontains hv)
    rw [hpu, hpv, Except.ok.injEq] at hpath
    obtain rfl := foldl_join_inj hplain hplain' hpath
    subst hrequest
    obtain ⟨found, hfu, rfl⟩ := get?_request hu
    obtain ⟨found', hfv, rfl⟩ := get?_request hv
    have hfound : found ≠ found' := fun he => htext (by rw [he])
    rcases clash_cases hcollect hfu hfv hfound hnu hnv with h | h | h | ⟨hu, hv, he, hroot, hor⟩
    · exact .inl h
    · exact .inr (.inl h)
    · exact .inr (.inr (.inl h))
    · refine .inr (.inr (.inr ⟨hu, hv, he, ?_⟩))
      obtain ⟨ref, href, hid⟩ := exists_ref_of_rootUnit hroot
      exact ⟨ref, href, by rwa [← hid]⟩
  · obtain ⟨before, after, hsplit⟩ := List.append_of_mem (Dict.get?_eq_some_iff.mp hu)
    obtain ⟨names, -, -, hpath, -⟩ := hnames (hcontains hu)
    refine ⟨_, hpath, (hlast before (u, text) after _ hsplit hpath fun v hv => ?_).readText⟩
    have hlt := (List.pairwise_append.mp (hsplit ▸ request.sources.ascending)).2.1
    have hmem : v.1 ∈ request.sources.keys := by
      rw [Dict.keys, hsplit]
      exact List.mem_map_of_mem (List.mem_append_right _ (List.mem_cons_of_mem _ hv))
    have hne := hafter v.1 (Dict.contains_of_mem_keys hmem) ((List.pairwise_cons.mp hlt).1 v hv)
    rwa [hpath] at hne
  · obtain ⟨names, hnames, -⟩ := hnames hu
    have hplain := isPlain_projectFile hf f.1 List.mem_cons_self
    exact unitPath_eq_join_iff hnames hplain (ne_base_of_projectFile hf _)
  · refine (hproject f hf fun u hu => hfree u.1 ?_).readText
    exact Dict.contains_of_mem_keys (List.mem_map_of_mem hu)

/-! ## Projects from memory -/

/-- Whether an exchange asks for a build. -/
def asksFor (request : SandboxRequest) : Exchange → Bool
  | .build r _ => r == request
  | _ => false

theorem exists_build {request : SandboxRequest} {es : List Exchange}
    (h : es.any (asksFor request) = true) : ∃ answer, .build request answer ∈ es := by
  obtain ⟨e, he, hasks⟩ := List.any_eq_true.mp h
  cases e with
  | build r answer => exact ⟨answer, beq_iff_eq.mp hasks ▸ he⟩
  | _ => cases hasks

/-- Surroundings with some sources. The build tool builds nothing. -/
def builtFrom (files : List (String × String)) : Surroundings Unit where
  resolver _ := ⟨(MemoryFiles.ofList files).view, .disabled, {}⟩
  compile _ _ := (.ok {}, ())
  sandbox := some fun _ _ => (.ok ∅, ())
  clock _ := (⟨0⟩, ())
  isCancelled _ := (false, ())

/-- A build and nothing else. -/
def buildOnly : RunSettings := { strategies := [.sandbox] }

/-- What a build is asked for. -/
def requestFor (units : List (String × String)) (packages : KeySet) : SandboxRequest :=
  ⟨.ofList units, packages, Run.sandboxConfig buildOnly⟩

/-- A root beside a file that a package has as well. -/
def twoKits : List (String × String) :=
  [("src/Main.sol", "import './Kit.sol'; import 'kit/Kit.sol';"), ("src/Kit.sol", "// own"),
    ("node_modules/kit/Kit.sol", "// kit")]

theorem layOut_separates_twoKits :
    let request := requestFor [("Main.sol", "import './Kit.sol'; import 'kit/Kit.sol';"),
      ("Kit.sol", "// own"), ("kit/Kit.sol", "// kit")] (KeySet.add ∅ "kit/Kit.sol")
    let exchanges :=
      (orchestrate buildOnly (builtFrom twoKits).recorded ⟨"src/Main.sol"⟩ ((), [])).2.2
    let d' := (exec (layOut ⟨"/box"⟩ "0.8.20" request) boxDisk).2
    let path (u : String) := unitPath ⟨"/box"⟩ u (request.packages.contains u)
    (∃ answer, .build request answer ∈ exchanges) ∧
    exec (layOut ⟨"/box"⟩ "0.8.20" request) boxDisk = (.ok (), d') ∧
    path "Kit.sol" ≠ path "kit/Kit.sol" ∧
    path "Kit.sol" ≠ .ok (Path.join ⟨"/box"⟩ ⟨"package.json"⟩) := by
  intro request exchanges d' path
  have hbuild : ∃ answer, .build request answer ∈ exchanges := exists_build (by decide +kernel)
  have hlay : exec (layOut ⟨"/box"⟩ "0.8.20" request) boxDisk = (.ok (), d') :=
    exec_eq_of_fst (by decide +kernel)
  have hown : request.packages.contains "Kit.sol" = false := by decide +kernel
  have hkit : request.packages.contains "kit/Kit.sol" = true := by decide +kernel
  obtain ⟨answer, hmem⟩ := hbuild
  obtain ⟨-, -, hclash, -, hproject⟩ := layOut_separates buildOnly (builtFrom twoKits)
    ⟨"src/Main.sol"⟩ () request answer ⟨"/box"⟩ "0.8.20" boxDisk d' hmem hlay
  refine ⟨⟨answer, hmem⟩, hlay, fun hsame => ?_, fun hover => ?_⟩
  · rcases hclash "Kit.sol" "kit/Kit.sol" "// own" "// kit" (by decide +kernel)
      (by decide +kernel) (by decide) hsame with ⟨-, h⟩ | ⟨h, -⟩ | ⟨h, -⟩ | ⟨-, h, -⟩
    · exact absurd h (by decide)
    · exact absurd (h.symm.trans hkit) Bool.false_ne_true
    · exact absurd (hown.symm.trans h) Bool.false_ne_true
    · exact absurd (h.symm.trans hkit) Bool.false_ne_true
  · have hclimbs := ((hproject _ List.mem_cons_self).1 "Kit.sol" (by decide +kernel)).mp hover
    exact absurd hclimbs.2 (by decide)

/-- A root that steps out of its directory to a file of the same name, and to a manifest. -/
def steppingRoot : String :=
  "import './Kit.sol'; import '../contracts/Kit.sol'; import '../package.json';"

/-- The sources of that root. -/
def steppingOut : List (String × String) :=
  [("src/Main.sol", steppingRoot), ("src/Kit.sol", "// own"), ("contracts/Kit.sol", "// other"),
    ("package.json", "// third")]

/-- The units that are collected for it. -/
def steppingUnits : SandboxRequest :=
  requestFor [("Main.sol", steppingRoot), ("Kit.sol", "// own"),
    ("../contracts/Kit.sol", "// other"), ("../package.json", "// third")] ∅

/-- **Units are written over each other and over the manifest of the project**, if the root steps
out of its directory: so do its units. -/
theorem units_written_over :
    let exchanges :=
      (orchestrate buildOnly (builtFrom steppingOut).recorded ⟨"src/Main.sol"⟩ ((), [])).2.2
    let done := exec (layOut ⟨"/box"⟩ "0.8.20" steppingUnits) boxDisk
    (∃ answer, .build steppingUnits answer ∈ exchanges) ∧
    done.1 = .ok () ∧
    steppingUnits.sources.get? "Kit.sol" = some "// own" ∧
    steppingUnits.sources.get? "../contracts/Kit.sol" = some "// other" ∧
    unitPath ⟨"/box"⟩ "Kit.sol" false = .ok ⟨"/box/contracts/Kit.sol"⟩ ∧
    unitPath ⟨"/box"⟩ "../contracts/Kit.sol" false = .ok ⟨"/box/contracts/Kit.sol"⟩ ∧
    unitPath ⟨"/box"⟩ "../package.json" false = .ok ⟨"/box/package.json"⟩ ∧
    done.2.get? ["box", "contracts", "Kit.sol"] = some (.file "// own".toUTF8) ∧
    done.2.get? ["box", "package.json"] = some (.file "// third".toUTF8) := by
  exact ⟨exists_build (by decide +kernel), by decide +kernel⟩

end Sandbox

end ContractBuild
