import ContractBuild.Proofs.Disk.Writing
import ContractBuild.Proofs.Sandbox.Containment

/-!
# What laying a project out writes

Units are written one after the other, each at the path that its names lead to below the project.
What a path of the project holds in the end is what was written to it last: the manifest of a
package is only written where there is none (`layUnit_ok`), so it is never written over a unit.

- **Names of units** (`unitPath_ok`, `foldl_join_inj`): units share a path exactly if the same names
  lead to them.
- **One unit** (`layUnit_ok`), **all units** (`layUnits_ok`), **the project** (`layOut_ok`): what is
  written over, and what is there afterwards.
-/

namespace ContractBuild

open ContractBuild.Path OnDisk

namespace Path

/-- Different plain names below a path are different paths. -/
theorem foldl_join_inj {names names' : List String} (h : ∀ s ∈ names, IsPlain (.name s))
    (h' : ∀ s ∈ names', IsPlain (.name s)) {dir : Path}
    (he : names.foldl (fun p s => p.join ⟨s⟩) dir = names'.foldl (fun p s => p.join ⟨s⟩) dir) :
    names = names' := by
  have hsteps := congrArg components he
  rw [components_foldl_join h, components_foldl_join h', List.append_cancel_left_eq] at hsteps
  exact (List.map_inj_right fun _ _ => Component.name.inj).mp hsteps

end Path

namespace Sandbox

variable {dir : Path} {packages : KeySet} {d d' : Disk}

/-- The names that lead to a unit that has a path. -/
theorem unitPath_ok {unit : String} {package : Bool} {p : Path}
    (h : unitPath dir unit package = .ok p) : ∃ names, unitNames unit package = .ok names ∧
      names ≠ [] ∧ (∀ s ∈ names, IsPlain (.name s)) ∧
      p = names.foldl (fun p s => p.join ⟨s⟩) dir := by
  cases hn : unitNames unit package with
  | error e =>
    rw [unitPath, hn] at h
    cases h
  | ok names =>
    rw [unitPath, hn] at h
    cases h
    obtain ⟨hne, hplain, -⟩ := unitNames_ok hn
    exact ⟨names, rfl, hne, hplain, rfl⟩

/-! ## One unit -/

/-- The file at a path: the path leads to it, and it holds a text. -/
def Holds (d : Disk) (p : Path) (text : String) : Prop :=
  d.locate p = .ok (d.placeOf p) ∧ d.get? (d.placeOf p) = some (.file text.toUTF8)

theorem Holds.readText {p : Path} {text : String} (h : Holds d p text) : d.readText p = .ok text :=
  Disk.readText_of_locate h.1 h.2

/-- A file that is not written over stays. -/
theorem Holds.of_extends {written : String → Prop} {p : Path} {text : String} (h : Holds d p text)
    (hd : Disk.Extends written d d') (hw : ¬ written (Disk.key (d.placeOf p))) :
    Holds d' p text := by
  rw [Holds, hd.placeOf]
  exact ⟨hd.locate h.1, hd.file _ _ hw h.2⟩

theorem writeText_ok {p : Path} {text : String} (h : exec (writeText p text) d = (.ok (), d')) :
    Disk.Extends (· = Disk.key (d.placeOf p)) d d' ∧ Holds d' p text := by
  have hwrite := exec_saying_ok h
  have hd := Disk.writeFile_extends hwrite
  rw [Holds, hd.placeOf]
  exact ⟨hd, Disk.locate_of_writeFile hwrite⟩

/-- Makes the directories that a file needs. -/
def makeParents (p : Path) : OnDisk Failure Unit :=
  match p.parent? with
  | some parent => Disk.saying "create directory" parent (Disk.makeDirs parent)
  | none => return

/-- The directory of a package. -/
def packageDir (dir : Path) (name : String) : Path := (dir.join ⟨"node_modules"⟩).join ⟨name⟩

/-- Writes the manifest of the package that a unit belongs to, unless there is one. -/
def layManifest (dir : Path) (package : Bool) (unit : String) : OnDisk Failure Unit :=
  match package, packageName? unit with
  | true, some name => do
    let manifest := (packageDir dir name).join ⟨"package.json"⟩
    if !(← get).hasPath manifest then writeText manifest (packageManifest name)
  | _, _ => return

theorem layUnit_eq (dir : Path) (packages : KeySet) (unit text : String) :
    layUnit dir packages unit text =
      match unitPath dir unit (packages.contains unit) with
      | .error e => throw ⟨e.message, []⟩
      | .ok p => (do
        makeParents p
        writeText p text
        layManifest dir (packages.contains unit) unit) := by
  unfold layUnit makeParents
  dsimp only
  cases unitPath dir unit (packages.contains unit) with
  | error e => rfl
  | ok p =>
    dsimp only
    cases p.parent? <;> rfl

theorem isAdditive_makeParents (p : Path) : IsAdditive (makeParents p) := by
  unfold makeParents
  split
  · exact .saying (Disk.isAdditive_makeDirs _)
  · exact .pure ()

/-- A manifest is only written where nothing stands, and then there is one. -/
theorem layManifest_ok {package : Bool} {unit : String}
    (h : exec (layManifest dir package unit) d = (.ok (), d')) :
    Disk.Extends (fun _ => False) d d' ∧ (package = true → ∀ name, packageName? unit = some name →
      d'.hasPath ((packageDir dir name).join ⟨"package.json"⟩) = true) := by
  unfold layManifest at h
  split at h
  · rename_i name hname
    simp only [exec_bind, exec_get, exec_ite] at h
    split at h
    · rename_i hnew
      have hwrite := exec_saying_ok h
      refine ⟨Disk.writeFile_extends_new hwrite (by simpa using hnew), fun _ name' hname' => ?_⟩
      cases hname.symm.trans hname'
      obtain ⟨hlocate, hget⟩ := Disk.locate_of_writeFile hwrite
      rw [Disk.hasPath, Disk.find?, hlocate]
      simp only [hget, Option.isSome_some]
    · rename_i hthere
      cases h
      refine ⟨.refl d, fun _ name' hname' => ?_⟩
      cases hname.symm.trans hname'
      simpa using hthere
  · rename_i hnone
    cases h
    exact ⟨.refl d, fun hpackage name hname => absurd hname (hnone name hpackage)⟩

/-- **What writing a unit does**: it has a path, which holds its text afterwards, and nothing else
is written over. If it belongs to a package, there is a manifest of the package. -/
theorem layUnit_ok {unit text : String}
    (h : exec (layUnit dir packages unit text) d = (.ok (), d')) :
    ∃ p, unitPath dir unit (packages.contains unit) = .ok p ∧
      Disk.Extends (· = Disk.key (d.placeOf p)) d d' ∧ Holds d' p text ∧
      (packages.contains unit = true → ∀ name, packageName? unit = some name →
        d'.hasPath ((packageDir dir name).join ⟨"package.json"⟩) = true) := by
  rw [layUnit_eq] at h
  split at h
  · cases h
  · rename_i p hp
    obtain ⟨_, d₁, hparents, h⟩ := exec_bind_ok h
    obtain ⟨_, d₂, hwrite, h⟩ := exec_bind_ok h
    have hd₁ : Disk.Extends (fun _ => False) d d₁ := by
      have hadditive := isAdditive_makeParents p d
      rw [hparents] at hadditive
      exact hadditive.toExtends
    obtain ⟨hd₂, hholds⟩ := writeText_ok hwrite
    obtain ⟨hd', hmanifest⟩ := layManifest_ok h
    rw [hd₁.placeOf] at hd₂
    refine ⟨p, hp, ?_, hholds.of_extends hd' not_false, hmanifest⟩
    exact ((hd₁.mono fun _ => False.elim).trans hd₂).trans (hd'.mono fun _ => False.elim)

/-! ## All units -/

/-- Paths of units have different keys. -/
theorem eq_of_key_placeOf {unit unit' : String} {package package' : Bool} {p q : Path}
    (hp : unitPath dir unit package = .ok p) (hq : unitPath dir unit' package' = .ok q)
    (h : Disk.key (d.placeOf p) = Disk.key (d.placeOf q)) : p = q := by
  obtain ⟨names, -, hne, hplain, rfl⟩ := unitPath_ok hp
  obtain ⟨names', -, hne', hplain', rfl⟩ := unitPath_ok hq
  rw [Disk.key_placeOf_inj hplain hplain' hne hne' h]

/-- **What writing units does**: all have a path, nothing else is written over, and a path holds the
text of the last unit that it belongs to. -/
theorem layUnits_ok {units : List (String × String)}
    (h : exec (layUnits dir packages units) d = (.ok (), d')) :
    (∀ u ∈ units, ∃ p, unitPath dir u.1 (packages.contains u.1) = .ok p) ∧
    Disk.Extends (fun k => ∃ u ∈ units, ∃ p, unitPath dir u.1 (packages.contains u.1) = .ok p ∧
      k = Disk.key (d.placeOf p)) d d' ∧
    ∀ before u after p, units = before ++ u :: after →
      unitPath dir u.1 (packages.contains u.1) = .ok p →
      (∀ v ∈ after, unitPath dir v.1 (packages.contains v.1) ≠ .ok p) → Holds d' p u.2 := by
  induction units generalizing d with
  | nil =>
    cases h
    exact ⟨by simp, .refl _, fun before u after p hsplit => by simp at hsplit⟩
  | cons u units ih =>
    obtain ⟨_, d₁, hunit, hrest⟩ := exec_bind_ok h
    obtain ⟨p, hp, hd₁, hholds, -⟩ := layUnit_ok hunit
    obtain ⟨hpaths, hd', hlast⟩ := ih hrest
    refine ⟨List.forall_mem_cons.mpr ⟨⟨p, hp⟩, hpaths⟩, ?_, ?_⟩
    · refine (hd₁.mono ?_).trans (hd'.mono ?_)
      · rintro k rfl
        exact ⟨u, List.mem_cons_self, p, hp, rfl⟩
      · rintro k ⟨v, hv, q, hq, rfl⟩
        exact ⟨v, List.mem_cons_of_mem _ hv, q, hq, by rw [hd₁.placeOf]⟩
    · intro before v after q hsplit hq hafter
      cases before with
      | cons w before =>
        cases hsplit
        exact hlast before v after q rfl hq hafter
      | nil =>
        cases hsplit
        cases hp.symm.trans hq
        -- the units behind it are written elsewhere
        refine hholds.of_extends hd' ?_
        rintro ⟨v, hv, q, hq', hkey⟩
        refine hafter v hv ?_
        rw [hq', eq_of_key_placeOf hp hq' hkey]

/-! ## The project -/

/-- The files of a project that are no units. -/
def projectFiles (solcVersion : String) (config : CompilerConfig) : List (String × String) :=
  [("package.json", projectManifest), ("hardhat.config.js", buildConfig solcVersion config)]

theorem isPlain_manifest : IsPlain (.name "package.json") := by
  unfold IsPlain
  decide

theorem isPlain_config : IsPlain (.name "hardhat.config.js") := by
  unfold IsPlain
  decide

theorem isPlain_projectFile {solcVersion : String} {config : CompilerConfig} {f : String × String}
    (h : f ∈ projectFiles solcVersion config) : ∀ s ∈ [f.1], IsPlain (.name s) := by
  rw [List.forall_mem_singleton]
  rcases List.mem_cons.mp h with rfl | h
  · exact isPlain_manifest
  · rw [List.mem_singleton.mp h]
    exact isPlain_config

/-- **What laying a project out does**: all units have a path, a path holds the text of the last
unit that it belongs to, and the files of the project stay where no unit is written over them. -/
theorem layOut_ok {solcVersion : String} {request : SandboxRequest}
    (h : exec (layOut dir solcVersion request) d = (.ok (), d')) :
    let path (unit : String) := unitPath dir unit (request.packages.contains unit)
    (∀ u ∈ request.sources.entries, ∃ p, path u.1 = .ok p) ∧
    (∀ before u after p, request.sources.entries = before ++ u :: after → path u.1 = .ok p →
      (∀ v ∈ after, path v.1 ≠ .ok p) → Holds d' p u.2) ∧
    ∀ f ∈ projectFiles solcVersion request.config,
      (∀ u ∈ request.sources.entries, path u.1 ≠ .ok (dir.join ⟨f.1⟩)) →
      Holds d' (dir.join ⟨f.1⟩) f.2 := by
  intro path
  obtain ⟨_, d₁, hmanifest, h⟩ := exec_bind_ok h
  obtain ⟨_, d₂, hconfig, h⟩ := exec_bind_ok h
  obtain ⟨hd₁, hmanifest⟩ := writeText_ok hmanifest
  obtain ⟨hd₂, hconfig⟩ := writeText_ok hconfig
  obtain ⟨hpaths, hd', hlast⟩ := layUnits_ok h
  refine ⟨hpaths, hlast, fun f hf hfree => ?_⟩
  have hplain := isPlain_projectFile hf
  have hholds : Holds d₂ (dir.join ⟨f.1⟩) f.2 := by
    rcases List.mem_cons.mp hf with rfl | hf
    · refine hmanifest.of_extends hd₂ fun hk => ?_
      have hnames : ["package.json"] = ["hardhat.config.js"] :=
        Disk.key_placeOf_inj hplain (by simpa using isPlain_config) (by simp) (by simp) hk
      exact absurd hnames (by decide)
    · rw [List.mem_singleton.mp hf]
      exact hconfig
  refine hholds.of_extends hd' ?_
  rintro ⟨u, hu, p, hp, hk⟩
  obtain ⟨names, -, hne, hnames, rfl⟩ := unitPath_ok hp
  obtain rfl : [f.1] = names := Disk.key_placeOf_inj hplain hnames (by simp) hne hk
  exact hfree u hu hp

end Sandbox

end ContractBuild
