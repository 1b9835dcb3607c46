import ContractBuild.Proofs.Collection.UnitNames
import ContractBuild.Proofs.Sandbox.Scaffold

/-!
# Manifests and the directories of packages

The manifest of a package is written beside the units of the package. The directory is named by the
first stretches of a unit as they are written, but the unit is written where its steps lead, with
parent steps folded. So the two agree exactly if folding keeps those first steps.

- **The name of a package** (`packageName?_eq_some`): the first steps of a unit, with others behind
  them.
- **The place of a unit** (`unitNames_package`): below `node_modules`, where its steps lead when
  they are folded on their own.
- **Spellings** (`toList_join`, `toList_foldl_join`): a path inside a directory is spelled with that
  directory in front, so the directory is there once the path leads somewhere.

Main statement: `Sandbox.manifest_beside_units`. A unit that steps back over the name of its package
is written elsewhere, and its manifest has no directory (`Sandbox.manifest_astray`).
-/

namespace ContractBuild

namespace Path

/-- One path lies inside another: it has all its steps, and more behind them. -/
def LiesIn (p home : Path) : Prop :=
  home.components <+: p.components ∧ home.components ≠ p.components

instance (p home : Path) : Decidable (p.LiesIn home) := inferInstanceAs (Decidable (_ ∧ _))

/-! ## Spellings -/

/-- What is written in front of a path that is joined. -/
def opened (p : Path) : List Char :=
  if p.isEmpty || p.text.toList.getLast? == some '/' then p.text.toList
  else p.text.toList ++ ['/']

theorem toList_join {q : Path} (h : q.isAbsolute = false) (p : Path) :
    (p.join q).text.toList = p.opened ++ q.text.toList := by
  unfold join opened
  rw [h, Bool.false_or]
  cases hp : p.isEmpty with
  | true =>
    have hnil : p.text.toList = [] := by simpa [isEmpty] using hp
    simp [hnil]
  | false =>
    rw [Bool.false_or, if_neg Bool.false_ne_true]
    split <;> simp

/-- What a file name or a parent step is spelled like. -/
def IsStretch (s : String) : Prop := s.toList ≠ [] ∧ '/' ∉ s.toList

theorem IsStretch.isAbsolute {s : String} (h : IsStretch s) : (Path.mk s).isAbsolute = false := by
  obtain ⟨c, cs, hs⟩ := List.exists_cons_of_ne_nil h.1
  have hslash := h.2
  rw [hs, List.mem_cons, not_or] at hslash
  simp [Path.isAbsolute, hs, Ne.symm hslash.1]

theorem isStretch_of_isPlain {c : Component} (h : IsPlain c) : IsStretch c.text := by
  refine ⟨fun hnil => ?_, h.1⟩
  have hidle := not_idle_of_isPlain h
  simp [idle, hnil] at hidle

/-- A path that does not end in a slash gets one before anything is joined to it. -/
theorem opened_of_getLast? {p : Path} {front : List Char} {c : Char}
    (h : p.text.toList = front ++ [c]) (hc : c ≠ '/') : p.opened = p.text.toList ++ ['/'] := by
  have hempty : p.isEmpty = false := by
    simp [isEmpty, ← String.toList_eq_nil_iff, h]
  simp [opened, hempty, h, hc]

theorem opened_join {s : String} (h : IsStretch s) (p : Path) :
    (p.join ⟨s⟩).opened = p.opened ++ s.toList ++ ['/'] := by
  obtain ⟨front, c, hs⟩ : ∃ front c, s.toList = front ++ [c] :=
    ⟨_, _, (List.dropLast_append_getLast h.1).symm⟩
  have htext := toList_join h.isAbsolute p
  rw [← htext]
  have hlast : (p.join ⟨s⟩).text.toList = (p.opened ++ front) ++ [c] := by
    rw [htext, hs, List.append_assoc]
  refine opened_of_getLast? hlast fun hc => ?_
  exact h.2 (by rw [hs, hc]; simp)

/-- Stretches that are joined one after the other are spelled with slashes between them. -/
theorem toList_foldl_join {parts : List String} (h : ∀ s ∈ parts, IsStretch s) (hne : parts ≠ [])
    (p : Path) : (parts.foldl (fun p s => p.join ⟨s⟩) p).text.toList =
      p.opened ++ slashed (parts.map String.toList) := by
  induction parts generalizing p with
  | nil => exact absurd rfl hne
  | cons s parts ih =>
    obtain ⟨hs, hparts⟩ := List.forall_mem_cons.mp h
    cases parts with
    | nil =>
      have hone : slashed [s.toList] = s.toList := by simp [slashed]
      rw [List.foldl_cons, List.foldl_nil, toList_join hs.isAbsolute, List.map_cons, List.map_nil,
        hone]
    | cons next more =>
      rw [List.foldl_cons, ih hparts (by simp), opened_join hs, List.map_cons (l := next :: more),
        slashed_cons s.toList (by simp)]
      simp

end Path

namespace Sandbox

open ContractBuild.Path OnDisk

/-! ## The name of a package -/

/-- The name of a package: steps that can be read back, with slashes between them. -/
structure Spells (name : String) (front : List Component) : Prop where
  plain : ∀ c ∈ front, IsPlain c
  nonempty : front ≠ []
  text : name.toList = slashed (front.map (·.text.toList))

namespace Spells

variable {name : String} {front : List Component}

theorem isAbsolute (h : Spells name front) : (Path.mk name).isAbsolute = false := by
  obtain ⟨c, front, rfl⟩ := List.exists_cons_of_ne_nil h.nonempty
  obtain ⟨a, rest, ha, hslash⟩ := exists_slashed_eq_cons (h.plain c List.mem_cons_self) front
  have hname := h.text.trans ha
  simp [Path.isAbsolute, hname, hslash]

theorem innerSteps (h : Spells name front) : Path.innerSteps name.toList = front := by
  rw [Path.innerSteps, h.text, filterMap_step?_segments h.plain]

theorem isStretch_nodeModules : IsStretch "node_modules" :=
  isStretch_of_isPlain (isPlain_base true)

/-- The steps of the directory of a package. -/
theorem components_packageDir (h : Spells name front) (dir : Path) :
    (packageDir dir name).components = dir.components ++ .name "node_modules" :: front := by
  have hmodules : (dir.join ⟨"node_modules"⟩).components =
      dir.components ++ [.name "node_modules"] := components_join_name (isPlain_base true) dir
  have hopen : (dir.join ⟨"node_modules"⟩).isEmpty = false := by
    have htext := toList_join isStretch_nodeModules.isAbsolute dir
    rw [isEmpty, Bool.eq_false_iff, ne_eq, String.isEmpty_iff, ← String.toList_eq_nil_iff, htext]
    simp
  rw [packageDir, components_join hopen h.isAbsolute, hmodules, h.innerSteps, List.append_assoc,
    List.singleton_append]

/-- The spelling of the directory of a package. -/
theorem toList_packageDir (h : Spells name front) (dir : Path) :
    (packageDir dir name).text.toList =
      dir.opened ++ slashed ("node_modules".toList :: front.map (·.text.toList)) := by
  have hne : front.map (·.text.toList) ≠ [] := by simpa using h.nonempty
  rw [packageDir, toList_join h.isAbsolute, opened_join isStretch_nodeModules, slashed_cons _ hne,
    ← h.text]
  simp

theorem toList_packageDir_ne_nil (h : Spells name front) (dir : Path) :
    (packageDir dir name).text.toList ≠ [] := by
  rw [h.toList_packageDir, slashed_cons _ (by simpa using h.nonempty)]
  simp

/-- What is joined to the directory of a package is spelled behind a slash. -/
theorem toList_join_packageDir (h : Spells name front) {s : String} (hs : IsStretch s)
    (dir : Path) : ((packageDir dir name).join ⟨s⟩).text.toList =
      (packageDir dir name).text.toList ++ '/' :: s.toList := by
  obtain ⟨before, last, rfl⟩ := (List.eq_nil_or_concat' front).resolve_left h.nonempty
  have hlast := isStretch_of_isPlain (h.plain last (by simp))
  obtain ⟨a, c, hc⟩ : ∃ a c, last.text.toList = a ++ [c] :=
    ⟨_, _, (List.dropLast_append_getLast hlast.1).symm⟩
  have htext := h.toList_packageDir dir
  have hone : slashed [last.text.toList] = last.text.toList := by simp [slashed]
  rw [List.map_append, ← List.cons_append, slashed_append (by simp) (by simp), List.map_singleton,
    hone, hc] at htext
  have hopened : (packageDir dir name).opened = (packageDir dir name).text.toList ++ ['/'] := by
    refine opened_of_getLast? (by rw [htext, ← List.cons_append, ← List.append_assoc,
      ← List.append_assoc]) fun hslash => hlast.2 (by rw [hc, hslash]; simp)
  rw [toList_join hs.isAbsolute, hopened]
  simp

end Spells

theorem segments_eq (unit : String) :
    segments unit = (innerSteps unit.toList).map Component.text := by
  unfold segments innerSteps
  induction Path.segments unit.toList with
  | nil => rfl
  | cons part parts ih =>
    cases hi : idle part with
    | true => simp [hi, step?, ih]
    | false =>
      have hstep : ∃ c, step? part = some c := by
        unfold step?
        rw [if_neg (by simp [hi])]
        split <;> exact ⟨_, rfl⟩
      obtain ⟨c, hc⟩ := hstep
      have htext : String.ofList part = c.text := by
        rw [← text_of_step? hc, String.ofList_toList]
      simp [hi, hc, ih, htext]

/-- **The name of a package is spelled like the first steps of its units**, and every unit has more
steps. -/
theorem packageName?_eq_some {unit name : String} (h : packageName? unit = some name) :
    ∃ front c rest, innerSteps unit.toList = front ++ c :: rest ∧ Spells name front := by
  have hplain (c : Component) (hc : c ∈ innerSteps unit.toList) : IsPlain c :=
    isPlain_of_mem_innerSteps hc
  unfold packageName? at h
  rw [segments_eq] at h
  split at h
  · rename_i first second rest hsteps
    obtain ⟨c₁, more, hinner, rfl, hmore⟩ := List.map_eq_cons_iff.mp hsteps
    obtain ⟨c₂, rest, rfl, rfl, rfl⟩ := List.map_eq_cons_iff.mp hmore
    split at h
    · split at h
      · cases h
      · rename_i hrest
        cases h
        cases rest with
        | nil => simp at hrest
        | cons c₃ rest =>
          refine ⟨[c₁, c₂], c₃, rest, hinner, fun c hc => hplain c ?_, by simp, ?_⟩
          · rw [hinner]
            exact List.mem_append_left (c₃ :: rest) hc
          · simp [slashed, List.intercalate]
    · cases h
      refine ⟨[c₁], c₂, rest, hinner, fun c hc => hplain c ?_, by simp, by simp [slashed]⟩
      rw [hinner]
      exact List.mem_append_left (c₂ :: rest) hc
  · cases h

/-! ## The place of a unit -/

/-- Names at the floor are never touched, so steps lead where they lead on their own. -/
theorem descend_above {unit : String} {base names result : List String} {steps : List Component}
    (h : descend unit base.length (names ++ base) steps = .ok result) :
    result.map .name = steps.foldl follow (names.map .name) ++ base.map .name := by
  induction steps generalizing names with
  | nil =>
    rw [descend] at h
    split at h
    · cases h
    · cases h
      simp
  | cons c steps ih =>
    cases c with
    | name s => exact @ih (s :: names) h
    | here => exact ih h
    | root => cases h
    | up =>
      rw [descend] at h
      split at h
      · cases h
      · rename_i hlength
        cases names with
        | nil => simp at hlength
        | cons s names => exact ih h

/-- A unit of a package is written below `node_modules`, where its steps lead when parent steps are
folded. -/
theorem unitNames_package {unit : String} {names : List String}
    (h : unitNames unit true = .ok names) : ∃ s rest, names = "node_modules" :: s :: rest ∧
      (s :: rest).map .name = resolve (Path.mk unit).components := by
  obtain ⟨-, -, -, hpackage⟩ := unitNames_ok h
  obtain ⟨s, rest, rfl⟩ := hpackage rfl
  refine ⟨s, rest, rfl, ?_⟩
  cases hd : descend unit (floor true) [base true] (Path.mk unit).components with
  | error e =>
    rw [unitNames, hd] at h
    cases h
  | ok result =>
    rw [unitNames, hd] at h
    have hreverse : result.reverse = "node_modules" :: s :: rest := Except.ok.inj h
    have habove := @descend_above unit ["node_modules"] [] _ _ hd
    rw [← List.reverse_inj, ← List.map_reverse, hreverse, List.reverse_append] at habove
    exact (List.cons.inj habove).2

/-- Plain steps down are names. -/
theorem exists_names_of_up_notMem {steps : List Component} (h : ∀ c ∈ steps, IsPlain c)
    (hup : .up ∉ steps) : ∃ names : List String, steps = names.map .name := by
  induction steps with
  | nil => exact ⟨[], rfl⟩
  | cons c steps ih =>
    obtain ⟨hc, hsteps⟩ := List.forall_mem_cons.mp h
    rw [List.mem_cons, not_or] at hup
    obtain ⟨names, rfl⟩ := ih hsteps hup.2
    cases c with
    | name s => exact ⟨s :: names, rfl⟩
    | up => exact absurd rfl hup.1
    | root => exact absurd rfl (ne_root_of_isPlain hc)
    | here => exact absurd hc (by unfold IsPlain; decide)

/-- Without parent steps nothing is folded. -/
theorem resolve_of_up_notMem {p : Path} (hrel : p.isAbsolute = false) (hup : .up ∉ p.components) :
    resolve p.components = innerSteps p.text.toList := by
  have hinner : .up ∉ innerSteps p.text.toList := fun hmem => hup (by
    rcases p.components_eq with ⟨-, hp⟩ | ⟨-, hp⟩ | ⟨-, hp⟩ <;> simp [hp, hmem])
  obtain ⟨names, hnames⟩ :=
    exists_names_of_up_notMem (fun _ hc => isPlain_of_mem_innerSteps hc) hinner
  have htrail := p.trail_eq
  rw [hrel, if_neg Bool.false_ne_true, hnames, foldl_follow_names, List.append_nil] at htrail
  rw [hnames]
  exact List.reverse_eq_iff.mpr htrail

/-- Steps that fold to names only are those of a relative path. -/
theorem isAbsolute_of_resolve {p : Path} {names : List String}
    (h : names.map .name = resolve p.components) : p.isAbsolute = false := by
  rw [Bool.eq_false_iff, ne_eq, ← root_mem_trail_iff, ← List.mem_reverse]
  intro hroot
  rw [show p.trail.reverse = names.map .name from h.symm] at hroot
  simp at hroot

/-! ## Manifests -/

/-- **Manifests stand beside the units of their package, if no unit steps back over its name.** A
unit of a package is written inside the directory of the package exactly if its steps still begin
with the name of the package when parent steps are folded, and go on behind it. So it is whenever
the unit has no parent steps. Once a unit inside is written, the directory is there, before the
manifest is looked for; and wherever the unit is, if laying it out succeeds then there is a manifest
in the directory. -/
theorem manifest_beside_units {dir p : Path} {unit name : String}
    (hp : unitPath dir unit true = .ok p) (hname : packageName? unit = some name) :
    let home := (dir.join ⟨"node_modules"⟩).join ⟨name⟩
    let steps := resolve (Path.mk unit).components
    (p.LiesIn home ↔ innerSteps name.toList <+: steps ∧ innerSteps name.toList ≠ steps) ∧
    (.up ∉ (Path.mk unit).components → p.LiesIn home) ∧
    (p.LiesIn home → ∀ text d d', exec (writeText p text) d = (.ok (), d') →
      d'.isDirectory home = true) ∧
    (∀ packages text d d', packages.contains unit = true →
      exec (layUnit dir packages unit text) d = (.ok (), d') →
      d'.isDirectory home = true ∧ d'.hasPath (home.join ⟨"package.json"⟩) = true) := by
  intro home steps
  obtain ⟨front, c, rest, hinner, hspells⟩ := packageName?_eq_some hname
  obtain ⟨names, hnames, -, hplain, rfl⟩ := unitPath_ok hp
  obtain ⟨s, more, rfl, hsteps⟩ := unitNames_package hnames
  have hhome : home.components = dir.components ++ .name "node_modules" :: front :=
    hspells.components_packageDir dir
  have hlies : (("node_modules" :: s :: more).foldl (fun p s => p.join ⟨s⟩) dir).LiesIn home ↔
      front <+: steps ∧ front ≠ steps := by
    rw [LiesIn, components_foldl_join hplain, hhome, List.map_cons, hsteps,
      List.prefix_append_right_inj, List.prefix_cons_inj, ne_eq, List.append_cancel_left_eq,
      List.cons_inj_right]
  refine ⟨by rw [hlies, hspells.innerSteps], fun hup => hlies.mpr ?_, fun hin text d d' hw => ?_,
    fun packages text d d' hpackage hlay => ?_⟩
  · have hfolded : steps = front ++ c :: rest := by
      rw [← hinner]
      exact resolve_of_up_notMem (isAbsolute_of_resolve hsteps) hup
    rw [hfolded]
    exact ⟨List.prefix_append _ _, by simp⟩
  · obtain ⟨⟨behind, hbehind⟩, hne⟩ := hlies.mp hin
    have hbehind_ne : behind ≠ [] := by
      rintro rfl
      exact hne (by rwa [List.append_nil] at hbehind)
    have hparts : ("node_modules" :: s :: more).map String.toList =
        ("node_modules".toList :: front.map (·.text.toList)) ++ behind.map (·.text.toList) := by
      have htexts := congrArg (List.map (·.text.toList)) (hbehind.trans hsteps.symm)
      rw [List.map_append, List.map_map] at htexts
      rw [List.map_cons, List.cons_append, htexts]
      rfl
    have hstretches : ∀ t ∈ "node_modules" :: s :: more, IsStretch t := fun t ht =>
      isStretch_of_isPlain (hplain t ht)
    have htext := toList_foldl_join hstretches (by simp) dir
    rw [hparts, slashed_append (by simp) (by simpa using hbehind_ne), ← List.append_assoc,
      ← hspells.toList_packageDir] at htext
    exact Disk.isDirectory_of_locate (writeText_ok hw).2.1 htext
      (hspells.toList_packageDir_ne_nil dir)
  · obtain ⟨-, -, -, -, hmanifest⟩ := layUnit_ok hlay
    have hthere := hmanifest hpackage name hname
    obtain ⟨place, hplace⟩ := Disk.exists_locate_of_hasPath hthere
    exact ⟨Disk.isDirectory_of_locate hplace
      (hspells.toList_join_packageDir (isStretch_of_isPlain isPlain_manifest) dir)
      (hspells.toList_packageDir_ne_nil dir), hthere⟩

/-- A disk with an empty directory for a project. -/
def boxDisk : Disk := { entries := .ofList [("box", .directory)] }

theorem manifest_beside_units_scoped :
    let unit := "@oz/./access//Ownable.sol"
    let home : Path := ⟨"/box/node_modules/@oz/access"⟩
    let packages := KeySet.add ∅ unit
    let d' := (exec (layUnit ⟨"/box"⟩ packages unit "") boxDisk).2
    unitPath ⟨"/box"⟩ unit true = .ok (home.join ⟨"Ownable.sol"⟩) ∧
    packageName? unit = some "@oz/access" ∧
    (home.join ⟨"Ownable.sol"⟩).LiesIn home ∧
    exec (layUnit ⟨"/box"⟩ packages unit "") boxDisk = (.ok (), d') ∧
    d'.isDirectory home = true ∧ d'.hasPath (home.join ⟨"package.json"⟩) = true := by
  intro unit home packages d'
  have hp : unitPath ⟨"/box"⟩ unit true = .ok (home.join ⟨"Ownable.sol"⟩) := by decide +kernel
  have hname : packageName? unit = some "@oz/access" := by decide +kernel
  have hup : .up ∉ (Path.mk unit).components := by decide +kernel
  have hlay : exec (layUnit ⟨"/box"⟩ packages unit "") boxDisk = (.ok (), d') :=
    exec_eq_of_fst (by decide +kernel)
  obtain ⟨-, hin, -, hmanifest⟩ := manifest_beside_units hp hname
  obtain ⟨hdir, hthere⟩ := hmanifest packages "" boxDisk d' (by decide +kernel) hlay
  exact ⟨hp, hname, hin hup, hlay, hdir, hthere⟩

/-- A unit that steps back over the name of its package lies in another one. Its manifest has no
directory, so the project cannot be laid out. -/
theorem manifest_astray :
    let unit := "a/../b/C.sol"
    let p : Path := ⟨"/box/node_modules/b/C.sol"⟩
    unitPath ⟨"/box"⟩ unit true = .ok p ∧ packageName? unit = some "a" ∧
    ¬ p.LiesIn ⟨"/box/node_modules/a"⟩ ∧ p.LiesIn ⟨"/box/node_modules/b"⟩ ∧
    (exec (layUnit ⟨"/box"⟩ (KeySet.add ∅ unit) unit "") boxDisk).1 =
      .error ⟨"failed to create file `/box/node_modules/a/package.json`: " ++
        OsError.notFound.message, []⟩ := by
  decide +kernel

end Sandbox

end ContractBuild
