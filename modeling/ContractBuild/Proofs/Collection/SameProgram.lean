import ContractBuild.Proofs.Collection.Termination
import Mathlib.Data.Set.Image

/-!
# Collecting and flattening see the same program

A flattened program is made of the files that a walk comes to, by their paths. A collection is made
of units, by names that the compiler makes up from the imports: each is a path from the directory of
the root. Where all imports are relative, the two are the same program.

- **Strict walks** (`whole_of_visit`): every import of a module is located.
- **Units and files** (`normalize_join_next`): the unit that an import means and the file that it is
  located at stay together. Normal forms, joins and directories commute, except where the name of a
  unit would be parent steps alone; in a file tree it never is (`named_of_join`).
- **A relative program** (`RelativeProgram`): the units that are reached are the files that are
  reached (`RelativeProgram.isUnitPath_of_reaches`, `RelativeProgram.exists_unit`).

Main statement: `collect_flatten`.
-/

namespace ContractBuild

open Solidity ContractBuild.Path

/-- Sources that could lie on a disk: every key ends in a name, none is a directory of another, and
none has a backslash. -/
structure MemoryFiles.IsTree (files : MemoryFiles) : Prop where
  named : ∀ key ∈ files.texts.keys, (Path.mk key).fileName?.isSome = true
  apart : ∀ key ∈ files.texts.keys, ∀ other ∈ files.texts.keys,
    (Path.mk key).components <+: (Path.mk other).components → key = other
  slashed : ∀ key ∈ files.texts.keys, '\\' ∉ key.toList

/-- Without backslashes the id of a file is its path. -/
theorem Location.id_file {p : Path} (h : '\\' ∉ p.text.toList) : (file p).id = p.text := by
  rw [id, ← String.toList_inj, String.toList_map]
  refine (List.map_congr_left fun c hc => ?_).trans (List.map_id _)
  refine if_neg fun he => h ?_
  rwa [← beq_iff_eq.mp he]

/-! ## Strict walks -/

namespace Resolver

variable {r : Resolver} {root : Location}

/-- A module with the text of a location that can be reached, and all of whose imports are
located. -/
def Whole (r : Resolver) (root : Location) (m : SourceModule) : Prop :=
  ∃ loc, r.Reachable root loc ∧ r.load loc = .ok m.text ∧ m.id = loc.id ∧
    ∀ raw ∈ importPaths m.text, ∃ target, r.locate loc raw = some target

theorem Whole.moduleAt {loc : Location} {text : String} {imports : List ImportReference}
    (hloc : r.Reachable root loc) (hread : r.load loc = .ok text)
    (hi : ∀ i ∈ (SourceModule.parse loc.id text).imports,
      ∃ target, r.locate loc i.raw = some target) :
    r.Whole root (moduleAt loc text imports) :=
  ⟨loc, hloc, hread, rfl, fun raw hraw =>
    hi ⟨raw, .of raw, none⟩ (List.mem_map.mpr ⟨raw, hraw, rfl⟩)⟩

/-- A strict walk without an error locates every import, and the modules that it adds are whole. -/
theorem Walked.whole (hs : r.settings.strict = true) {loc : Location}
    {is is' : List ImportReference} {g g' : Graph} (h : r.Walked loc is g is' g') {text : String}
    (hloc : r.Reachable root loc) (hread : r.load loc = .ok text)
    (hi : ∀ i ∈ is, i.raw ∈ importPaths text) :
    (∀ i ∈ is, ∃ target, r.locate loc i.raw = some target) ∧
      ∀ m ∈ g'.modules, m ∈ g.modules ∨ r.Whole root m := by
  induction h generalizing text with
  | done => exact ⟨by simp, fun m hm => .inl hm⟩
  | missing _ left _ _ =>
    cases hs.symm.trans (unresolved_ok left).1
  | seen located _ _ ih =>
    obtain ⟨-, hrest⟩ := List.forall_mem_cons.mp hi
    obtain ⟨hlocated, hnew⟩ := ih hloc hread hrest
    exact ⟨List.forall_mem_cons.mpr ⟨⟨_, located⟩, hlocated⟩, hnew⟩
  | @entered _ target text' _ inner _ _ _ _ _ located _ read _ _ ihb ih =>
    obtain ⟨hraw, hrest⟩ := List.forall_mem_cons.mp hi
    have htarget : r.Reachable root target :=
      .step hloc hread hraw located fun ref he => ⟨text', by rw [he] at read; exact read⟩
    obtain ⟨hbelow, hnew₁⟩ := ihb htarget read (by simp [SourceModule.parse])
    obtain ⟨hlocated, hnew⟩ := ih hloc hread hrest
    refine ⟨List.forall_mem_cons.mpr ⟨⟨_, located⟩, hlocated⟩, fun m hm => ?_⟩
    rcases hnew m hm with hm | hm
    · rw [Graph.modules_push, List.mem_append, List.mem_singleton] at hm
      rcases hm with hm | rfl
      · exact hnew₁ m hm
      · exact .inr (.moduleAt htarget read hbelow)
    · exact .inr hm
  | failed _ _ _ left _ _ =>
    cases hs.symm.trans (unresolved_ok left).1

theorem whole_of_visit (hs : r.settings.strict = true) {g : Graph}
    (h : r.visit root .empty = ⟨g, none⟩) : ∀ m ∈ g.modules, r.Whole root m := by
  obtain ⟨text, imports, g₁, read, hw, rfl⟩ := walked_of_visit rfl h
  obtain ⟨hlocated, hnew⟩ := hw.whole hs .root read (by simp [SourceModule.parse])
  intro m hm
  rw [Graph.modules_push, List.mem_append, List.mem_singleton] at hm
  rcases hm with hm | rfl
  · exact (hnew m hm).resolve_left (by simp)
  · exact .moduleAt .root read hlocated

/-- A relative import is located beside the importer or not at all. -/
theorem locate_of_startsRelative {p : Path} {raw : String} {target : Location}
    (hs : startsRelative raw = true) (h : r.locate (.file p) raw = some target) :
    target = .file (p.directory.join ⟨raw⟩).normalize ∧
      r.view.isFile (p.directory.join ⟨raw⟩).normalize = true := by
  have hkind : ImportKind.of raw = .relative := by simp [ImportKind.of, hs]
  unfold locate at h
  rw [hkind] at h
  obtain ⟨q, hq, rfl, hfile⟩ := firstFile?_eq_some h
  rcases mem_candidates hq with rfl | ⟨hne, -⟩
  · exact ⟨rfl, hfile⟩
  · cases hne

end Resolver

/-! ## Units and files -/

namespace Path

/-- A unit that relative imports lead to: a relative normal form that ends in a name. -/
structure IsUnitPath (u : Path) : Prop where
  normal : u.normalize = u
  relative : u.isAbsolute = false
  named : ∃ s before, u.trail = .name s :: before

theorem isAbsolute_of_startsRelative {raw : String} (h : startsRelative raw = true) :
    (Path.mk raw).isAbsolute = false := by
  rw [startsRelative, Bool.or_eq_true, List.isPrefixOf_iff_prefix, List.isPrefixOf_iff_prefix] at h
  rcases h with ⟨rest, h⟩ | ⟨rest, h⟩ <;> simp [isAbsolute, ← h]

theorem eq_of_text {p q : Path} (h : p.text = q.text) : p = q := by
  cases p
  cases q
  cases h
  rfl

/-- Where a unit stands, step by step. -/
theorem trail_join_cons {u : Path} (hr : u.isAbsolute = false) {s : String}
    {before : List Component} (ht : u.trail = .name s :: before) (d : Path) :
    (d.join u).trail = .name s :: before.reverse.foldl follow d.trail := by
  rw [trail_join_trail hr, ht, List.reverse_cons, List.foldl_append]
  rfl

theorem trail_of_fileName? {p : Path} (hp : p.normalize = p) {s : String}
    (hs : p.fileName? = some s) : ∃ before, p.trail = .name s :: before := by
  have hlast : p.components.getLast? = some (.name s) := by
    unfold fileName? at hs
    split at hs
    · cases hs
      assumption
    · cases hs
  rw [components_eq_trail hp, List.getLast?_reverse] at hlast
  exact List.head?_eq_some_iff.mp hlast

theorem ofComponents_name (s : String) : ofComponents [.name s] = ⟨s⟩ := by
  simp [ofComponents, slashed, Component.text]

/-- The last name of a path is a path of one step. -/
theorem trail_name {p : Path} {s : String} {before : List Component}
    (ht : p.trail = .name s :: before) : (Path.mk s).trail = [.name s] := by
  have hplain : ∀ c ∈ [Component.name s], c = .root ∨ IsPlain c := by
    intro c hc
    rw [List.mem_singleton.mp hc]
    exact .inr (isPlain_of_mem_trail (ht ▸ List.mem_cons_self) (by simp))
  have hname : Trail [.name s] := .name s (.ups 0)
  have h := trail_ofComponents hname hplain
  rwa [List.reverse_singleton, ofComponents_name] at h

theorem isUnitPath_of_trail {p : Path} {s : String} {before : List Component}
    (ht : p.trail = .name s :: before) : IsUnitPath ⟨s⟩ := by
  have htrail := trail_name ht
  refine ⟨?_, ?_, s, [], htrail⟩
  · rw [normalize_eq, htrail]
    exact ofComponents_name s
  · rw [← Bool.not_eq_true, ← root_mem_trail_iff, htrail]
    simp

/-- Seen from its directory, a path is its last name. -/
theorem normalize_join_name {p : Path} (hp : p.normalize = p) {s : String}
    {before : List Component} (ht : p.trail = .name s :: before) :
    (p.directory.join ⟨s⟩).normalize = p := by
  have hplace : (p.directory.join ⟨s⟩).trail = p.trail := by
    rw [trail_join_cons (isUnitPath_of_trail ht).relative (trail_name ht),
      trail_directory hp ht (by simp), ht]
    rfl
  rw [normalize_eq_of_trail hplace, hp]

/-- **Naming a unit commutes with locating it.** The next unit, seen from the directory of the root,
is the import, seen from the directory of the unit. -/
theorem normalize_join_next {u raw : Path} (hu : IsUnitPath u) (hraw : raw.isAbsolute = false)
    (d : Path) :
    (d.join (u.directory.join raw).normalize).normalize =
      ((d.join u).normalize.directory.join raw).normalize := by
  obtain ⟨s, before, ht⟩ := hu.named
  have hbefore : Trail before := (ht ▸ u.isTrail : Trail (.name s :: before)).of_cons (by simp)
  have hdir : u.directory.trail = before := trail_directory hu.normal ht (by simp)
  have hplace : (d.join u).normalize.directory.trail = before.reverse.foldl follow d.trail := by
    have hthere := trail_join_cons hu.relative ht d
    rw [← trail_normalize] at hthere
    exact trail_directory (normalize_normalize _) hthere (by simp)
  have hnext : (u.directory.join raw).isAbsolute = false := by
    rw [isAbsolute_join hraw, (directory_of_relative hu.normal hu.relative).1]
  -- the steps to the next unit, before they are folded
  have hroot : .root ∉ before.reverse ++ innerSteps raw.text.toList := by
    intro h
    rcases List.mem_append.mp h with h | h
    · refine root_notMem_trail hu.relative ?_
      rw [ht]
      exact List.mem_cons_of_mem _ (List.mem_reverse.mp h)
    · exact ne_root_of_isPlain (isPlain_of_mem_innerSteps h) rfl
  have hfold : before.reverse.foldl follow [] = before := by
    rw [← List.reverse_inj]
    exact hbefore.resolve_reverse
  apply normalize_eq_of_trail
  calc (d.join (u.directory.join raw).normalize).trail
      = (u.directory.join raw).trail.reverse.foldl follow d.trail := by
        rw [trail_join_normalize hnext, trail_join_trail hnext]
    _ = ((before.reverse ++ innerSteps raw.text.toList).foldl follow []).reverse.foldl follow
          d.trail := by rw [trail_join hraw, hdir, List.foldl_append, hfold]
    _ = (innerSteps raw.text.toList).foldl follow (before.reverse.foldl follow d.trail) := by
        rw [foldl_reverse_foldl hroot, List.foldl_append]
    _ = ((d.join u).normalize.directory.join raw).trail := by rw [trail_join hraw, hplace]

/-- **A unit that stands at a named path is named,** unless the path is a directory of the root. -/
theorem named_of_join {u p : Path} (hu : u.isAbsolute = false) (hp : p.normalize = p)
    (hr : p.isAbsolute = false) {t : String} {dir : List Component}
    (ht : p.trail = .name t :: dir) {s : String} {above : List Component}
    (hq : (p.directory.join u).trail = .name s :: above)
    (hapart : (p.directory.join u).normalize.components <+: p.components →
      (p.directory.join u).normalize = p) :
    ∃ s before, u.trail = .name s :: before := by
  obtain ⟨names, n, hnames⟩ := exists_names hu
  cases names with
  | cons s names => exact ⟨s, _, hnames⟩
  | nil =>
    exfalso
    have hdir : p.directory.trail = dir := trail_directory hp ht (by simp)
    have hroot : .root ∉ dir := fun h =>
      root_notMem_trail hr (by rw [ht]; exact List.mem_cons_of_mem _ h)
    have htrail : (p.directory.join u).trail = (List.replicate n .up).foldl follow dir := by
      rw [trail_join_trail hu, hnames, foldl_follow_reverse, hdir]
      rfl
    rcases foldl_follow_ups n hroot with ⟨-, hdrop⟩ | ⟨after, hup, -⟩
    · -- the parent steps end in a directory of the root
      rw [hdrop] at htrail
      have hfront : (p.directory.join u).normalize.components <+: p.components := by
        rw [components_eq_trail (normalize_normalize _), components_eq_trail hp, trail_normalize,
          htrail, ht, List.reverse_prefix]
        exact (List.drop_suffix n dir).trans (List.suffix_cons _ _)
      have hsame := congrArg (fun q => q.trail.length) (hapart hfront)
      simp only [trail_normalize, htrail, ht, List.length_drop, List.length_cons] at hsame
      omega
    · rw [hup, hq] at htrail
      cases htrail

end Path

/-! ## Relative programs -/

theorem MemoryFiles.isFile_of_read {files : MemoryFiles} {p : Path} {text : String}
    (h : files.read p = .ok text) : files.isFile p = true := by
  unfold MemoryFiles.read at h
  split at h
  · rename_i t ht
    rw [MemoryFiles.isFile, Dict.contains_eq_isSome_get?, ht]
    rfl
  · cases h

theorem MemoryFiles.mem_keys_of_isFile {files : MemoryFiles} {p : Path} (hp : p.normalize = p)
    (h : files.isFile p = true) : p.text ∈ files.texts.keys := by
  apply Dict.mem_keys_of_contains
  rwa [MemoryFiles.isFile, MemoryFiles.key, hp] at h

/-- Files of a tree end in a name. -/
theorem MemoryFiles.IsTree.exists_trail {files : MemoryFiles} (h : files.IsTree) {p : Path}
    (hp : p.normalize = p) (hf : files.isFile p = true) :
    ∃ s before, p.trail = .name s :: before ∧ p.fileName? = some s := by
  have hnamed := h.named _ (MemoryFiles.mem_keys_of_isFile hp hf)
  obtain ⟨s, hs⟩ := Option.isSome_iff_exists.mp hnamed
  obtain ⟨before, hb⟩ := trail_of_fileName? hp hs
  exact ⟨s, before, hb, hs⟩

/-- No file of a tree is a directory of another. -/
theorem MemoryFiles.IsTree.eq_of_prefix {files : MemoryFiles} (h : files.IsTree) {p q : Path}
    (hp : p.normalize = p) (hf : files.isFile p = true) (hq : q.normalize = q)
    (hg : files.isFile q = true) (hfront : p.components <+: q.components) : p = q :=
  eq_of_text (h.apart _ (MemoryFiles.mem_keys_of_isFile hp hf) _
    (MemoryFiles.mem_keys_of_isFile hq hg) hfront)

/-- The files of a tree that a resolver comes to from a root, all of them by relative imports. -/
structure RelativeProgram (files : MemoryFiles) (r : Resolver) (p : Path) : Prop where
  tree : files.IsTree
  view : r.view = files.view
  normal : p.normalize = p
  relative : p.isAbsolute = false
  isFile : files.isFile p = true
  imports : ∀ loc text, r.Reachable (.file p) loc → r.load loc = .ok text →
    ∀ raw ∈ importPaths text, startsRelative raw = true

namespace RelativeProgram

variable {files : MemoryFiles} {r : Resolver} {p : Path}

/-- Only files of the tree are located. -/
theorem exists_file_of_located (h : RelativeProgram files r p) {loc : Location}
    (hl : r.Located (.file p) loc) :
    r.Reachable (.file p) loc ∧ ∃ q, loc = .file q ∧ q.normalize = q ∧ files.isFile q = true := by
  induction hl with
  | root => exact ⟨.root, p, rfl, h.normal, h.isFile⟩
  | step _ read imported located ih =>
    obtain ⟨hreach, q, rfl, -, -⟩ := ih
    obtain ⟨rfl, hfile⟩ :=
      Resolver.locate_of_startsRelative (h.imports _ _ hreach read _ imported) located
    rw [h.view] at hfile
    exact ⟨.step hreach read imported located (fun _ he => nomatch he),
      _, rfl, normalize_normalize _, hfile⟩

theorem id_of_isFile (h : RelativeProgram files r p) {q : Path} (hq : q.normalize = q)
    (hf : files.isFile q = true) : (Location.file q).id = q.text :=
  Location.id_file (h.tree.slashed _ (MemoryFiles.mem_keys_of_isFile hq hf))

theorem injOn_id (h : RelativeProgram files r p) :
    Set.InjOn Location.id {loc | r.Located (.file p) loc} := by
  intro loc hloc loc' hloc' hid
  obtain ⟨-, q, rfl, hq, hf⟩ := h.exists_file_of_located hloc
  obtain ⟨-, q', rfl, hq', hf'⟩ := h.exists_file_of_located hloc'
  rw [h.id_of_isFile hq hf, h.id_of_isFile hq' hf'] at hid
  rw [eq_of_text hid]

end RelativeProgram

/-- Where a unit stands: its name, seen from the directory of the root. -/
def unitPath (p : Path) (name : String) : Path := (p.directory.join ⟨name⟩).normalize

theorem normalize_unitPath (p : Path) (name : String) :
    (unitPath p name).normalize = unitPath p name := normalize_normalize _

/-- A relative program all of whose imports are located. -/
structure ResolvedProgram (files : MemoryFiles) (r : Resolver) (p : Path) : Prop
    extends RelativeProgram files r p where
  located : ∀ loc text, r.Reachable (.file p) loc → r.load loc = .ok text →
    ∀ raw ∈ importPaths text, ∃ target, r.locate loc raw = some target

namespace ResolvedProgram

variable {files : MemoryFiles} {r : Resolver} {p : Path} {l : UnitLookup}

/-- The file name of the root is a unit, and stands at the root. -/
theorem isUnitPath_rootUnit (h : ResolvedProgram files r p) (hb : l.base = .file p) :
    IsUnitPath ⟨l.rootUnit⟩ ∧ unitPath p l.rootUnit = p := by
  obtain ⟨s, before, ht, hname⟩ := h.tree.exists_trail h.normal h.isFile
  have hroot : l.rootUnit = s := by
    unfold UnitLookup.rootUnit
    rw [hb]
    simp [hname]
  rw [hroot]
  exact ⟨isUnitPath_of_trail ht, normalize_join_name h.normal ht⟩

/-- **One import, for a unit and for the file at which it stands.** -/
theorem next (h : ResolvedProgram files r p) {name text raw : String} (hu : IsUnitPath ⟨name⟩)
    (hreach : r.Reachable (.file p) (.file (unitPath p name)))
    (hread : r.load (.file (unitPath p name)) = .ok text) (hraw : raw ∈ importPaths text) :
    IsUnitPath ⟨unitName name raw⟩ ∧
      r.locate (.file (unitPath p name)) raw = some (.file (unitPath p (unitName name raw))) := by
  have hs := h.imports _ _ hreach hread raw hraw
  have habs := isAbsolute_of_startsRelative hs
  obtain ⟨target, htarget⟩ := h.located _ _ hreach hread raw hraw
  obtain ⟨rfl, hfile⟩ := Resolver.locate_of_startsRelative hs htarget
  have hunit : Path.mk (unitName name raw) = ((Path.mk name).directory.join ⟨raw⟩).normalize := by
    rw [unitName, if_pos hs]
  have hplace : ((unitPath p name).directory.join ⟨raw⟩).normalize =
      unitPath p (unitName name raw) := by
    rw [unitPath, unitPath, hunit, normalize_join_next hu habs]
  rw [h.view, hplace] at hfile
  have hfile : files.isFile (unitPath p (unitName name raw)) = true := hfile
  rw [hplace] at htarget
  refine ⟨?_, htarget⟩
  have hrel : (Path.mk (unitName name raw)).isAbsolute = false := by
    rw [hunit, isAbsolute_normalize, isAbsolute_join habs,
      (directory_of_relative hu.normal hu.relative).1]
  refine ⟨by rw [hunit, normalize_normalize], hrel, ?_⟩
  obtain ⟨t, dir, ht, -⟩ := h.tree.exists_trail h.normal h.isFile
  obtain ⟨s, above, hq, -⟩ := h.tree.exists_trail (normalize_unitPath _ _) hfile
  have hq : (p.directory.join ⟨unitName name raw⟩).trail = .name s :: above := by
    rw [← trail_normalize]
    exact hq
  refine named_of_join hrel h.normal h.relative ht hq fun hfront => ?_
  exact h.tree.eq_of_prefix (normalize_unitPath _ _) hfile h.normal h.isFile hfront

/-- The text of a unit is the text of the file at which it stands. -/
theorem find_unit (h : ResolvedProgram files r p) (hb : l.base = .file p)
    (hview : l.resolver.view = files.view) {name : String}
    (hreach : r.Reachable (.file p) (.file (unitPath p name))) :
    ∃ text, l.find name = .ok text ∧ r.load (.file (unitPath p name)) = .ok text := by
  obtain ⟨-, q, hq, -, hfile⟩ := h.exists_file_of_located hreach.located
  cases hq
  obtain ⟨text, ht⟩ := MemoryFiles.read_of_isFile hfile
  have hload : r.load (.file (unitPath p name)) = .ok text := by
    rw [Resolver.load, h.view]
    exact ht
  refine ⟨text, UnitLookup.find_of_read hb ?_ ?_ ?_, hload⟩
  · rintro rfl
    exact (h.isUnitPath_rootUnit hb).2
  · rw [hview]
    exact hfile
  · rw [hview]
    exact ht

/-- **Units that are reached stand at files that are reached.** -/
theorem isUnitPath_of_reaches (h : ResolvedProgram files r p) (hb : l.base = .file p)
    (hview : l.resolver.view = files.view) {name : String} (hname : l.Reaches name) :
    IsUnitPath ⟨name⟩ ∧ r.Reachable (.file p) (.file (unitPath p name)) := by
  induction hname with
  | root =>
    obtain ⟨hu, hplace⟩ := h.isUnitPath_rootUnit hb
    exact ⟨hu, by rw [hplace]; exact .root⟩
  | step _ found imported ih =>
    obtain ⟨hu, hreach⟩ := ih
    obtain ⟨text, hfind, hload⟩ := h.find_unit hb hview hreach
    cases hfind.symm.trans found
    obtain ⟨hnext, hlocate⟩ := h.next hu hreach hload imported
    exact ⟨hnext, .step hreach hload imported hlocate (fun _ he => nomatch he)⟩

/-- **At every file that is reached stands a unit that is reached.** -/
theorem exists_unit (h : ResolvedProgram files r p) (hb : l.base = .file p)
    (hview : l.resolver.view = files.view) {loc : Location} (hloc : r.Reachable (.file p) loc) :
    ∃ name, l.Reaches name ∧ loc = .file (unitPath p name) := by
  induction hloc with
  | root => exact ⟨l.rootUnit, .root, by rw [(h.isUnitPath_rootUnit hb).2]⟩
  | @step _ target _ raw _ read imported located _ ih =>
    obtain ⟨name, hname, rfl⟩ := ih
    obtain ⟨hu, hreach⟩ := h.isUnitPath_of_reaches hb hview hname
    obtain ⟨text, hfind, hload⟩ := h.find_unit hb hview hreach
    cases hload.symm.trans read
    obtain ⟨-, hlocate⟩ := h.next hu hreach hload imported
    exact ⟨unitName name raw, .step hname hfind imported,
      Option.some.inj (located.symm.trans hlocate)⟩

section

variable {remote : Option (Dict String)} {settings settings' : ResolverSettings}

/-- A unit that is reached has one of finitely many names. -/
theorem mem_collectable (h : ResolvedProgram files (.inMemory files remote settings) p) :
    let l : UnitLookup := ⟨.inMemory files remote settings', .file p⟩
    let size := l.resolver.view.size + l.resolver.remote.size
    ∀ name text, l.Reaches name → l.find name = .ok text →
      name ∈ Resolver.collectable files remote l.rootUnit (2 * size) ∧
        (importPaths text).length ≤ size := by
  intro l size name text hname hfind
  obtain ⟨hu, hreach⟩ := h.isUnitPath_of_reaches (l := l) rfl rfl hname
  obtain ⟨text', hfind', hload⟩ := h.find_unit (l := l) rfl rfl hreach
  cases hfind'.symm.trans hfind
  -- the root and the file at which the unit stands are in memory
  have hsize {q : Path} {t : String} (hq : q.normalize = q)
      (ht : (Resolver.inMemory files remote settings).load (.file q) = .ok t) :
      (q.text, t) ∈ Resolver.memoryEntries files remote ∧ q.text.length + t.length < size := by
    have hentry := Resolver.mem_memoryEntries_of_load ht
    rw [Location.key, MemoryFiles.key, hq] at hentry
    exact ⟨hentry, Resolver.length_lt_of_mem_memoryEntries hentry settings'⟩
  obtain ⟨hentry, hlength⟩ := hsize (normalize_unitPath _ _) hload
  obtain ⟨rootText, hroot⟩ := MemoryFiles.read_of_isFile h.isFile
  obtain ⟨-, hrootLength⟩ := hsize h.normal hroot
  obtain ⟨hdir, hdepth⟩ := directory_of_relative h.normal h.relative
  have htrail := length_trail_le h.normal h.relative
  have himports := Resolver.length_importPaths_le text
  refine ⟨?_, by omega⟩
  rw [Resolver.collectable, List.mem_toFinset, List.mem_cons, List.mem_append]
  have hsteps : p.directory.trail.length + (unitPath p name).text.length ≤ 2 * size := by omega
  exact .inr (.inr (mem_spellings_of_join hu.normal hdir hsteps fun last hlast =>
    Resolver.mem_unitEnds hentry hlast))

/-- **The collection of a resolved program has a result,** strict or not. -/
theorem exists_collected (h : ResolvedProgram files (.inMemory files remote settings) p) :
    let l : UnitLookup := ⟨.inMemory files remote settings', .file p⟩
    ∃ c, l.collect = .ok c := by
  intro l
  rcases UnitLookup.run_ends h.mem_collectable
    (Resolver.card_collectable_le files remote settings' (.file p)) with hc | hfails
  · exact hc
  · obtain ⟨name, cause, e, hname, hcause, -⟩ := hfails
    obtain ⟨-, hreach⟩ := h.isUnitPath_of_reaches (l := l) rfl rfl hname
    obtain ⟨text, hfind, -⟩ := h.find_unit (l := l) rfl rfl hreach
    cases hfind.symm.trans hcause

end

end ResolvedProgram

namespace Resolver

theorem visit_of_flatten {r : Resolver} {root : Path} {out : Flattened}
    (h : r.flatten root = .ok out) :
    ∃ g, r.visit (r.rootLocation root) .empty = ⟨g, none⟩ ∧ out = g.flattened := by
  unfold flatten at h
  split at h
  · cases h
  · cases h
    exact ⟨_, by assumption, rfl⟩

/-- What a strict walk comes to from a root is a resolved program, if its imports are relative. -/
theorem resolvedProgram_of_visit {files : MemoryFiles} {r : Resolver} {p : Path}
    (hs : r.settings.strict = true) (h : RelativeProgram files r p) {g : Graph}
    (hg : r.visit (.file p) .empty = ⟨g, none⟩) : ResolvedProgram files r p := by
  refine { h with located := fun loc text hloc hread raw hraw => ?_ }
  obtain ⟨m, hm, hid⟩ := finished_of_reachable hg h.injOn_id hloc
  obtain ⟨loc', hloc', hread', hid', hlocated⟩ := whole_of_visit hs hg m hm
  obtain rfl : loc' = loc := h.injOn_id hloc'.located hloc.located (hid'.symm.trans hid)
  cases hread.symm.trans hread'
  exact hlocated raw hraw

end Resolver

namespace UnitLookup

/-- **Collecting and flattening see the same program.** For a file tree in memory, a relative root
from which all imports are relative, and a strict flattening with a result, there is a collection,
strict or not. Seen from the directory of the root, its units are the modules of the flattened
program, with their texts, and none of them belongs to a package. -/
theorem collect_flatten (files : MemoryFiles) (remote : Option (Dict String)) (dirs : List String)
    (strict : Bool) (root p : Path) (out : Flattened) :
    let r := Resolver.inMemory files remote { dependencyDirs := dirs, strict := true }
    let l := ofRoot (.inMemory files remote { dependencyDirs := dirs, strict }) root
    files.IsTree → l.base = .file p → p.isAbsolute = false →
    (∀ loc text, r.Reachable l.base loc → r.load loc = .ok text →
      ∀ raw ∈ importPaths text, startsRelative raw = true) →
    r.flatten root = .ok out →
    ∃ c g, l.collect = .ok c ∧ r.visit l.base .empty = ⟨g, none⟩ ∧ out = g.flattened ∧
      (fun name => (p.directory.join ⟨name⟩).normalize.text) '' {name | c.sources.contains name} =
        {id | id ∈ out.modules} ∧
      (∀ name text, c.sources.get? name = some text →
        ∃ m ∈ g.modules, m.id = (p.directory.join ⟨name⟩).normalize.text ∧ m.text = text) ∧
      c.packages = ∅ := by
  intro r l htree hbase hrel himports hflat
  obtain ⟨g, hg, rfl⟩ := Resolver.visit_of_flatten hflat
  have hroot : r.rootLocation root = .file p := hbase
  rw [hroot] at hg
  obtain ⟨rootText, -, -, hread, -⟩ := Resolver.walked_of_visit rfl hg
  have hrelative : RelativeProgram files r p :=
    ⟨htree, rfl, Resolver.normalize_rootLocation hroot, hrel, MemoryFiles.isFile_of_read hread,
      hbase ▸ himports⟩
  have hprog := Resolver.resolvedProgram_of_visit rfl hrelative hg
  obtain ⟨c, hc⟩ : ∃ c, l.collect = .ok c := by
    have hl : l = ⟨l.resolver, .file p⟩ := by rw [← hbase]
    rw [hl]
    exact hprog.exists_collected
  have hcollected := get?_of_run hc
  -- every unit stands at a module, with its text
  have hmodule : ∀ name text, c.sources.get? name = some text →
      ∃ m ∈ g.modules, m.id = (unitPath p name).text ∧ m.text = text := by
    intro name text hget
    obtain ⟨hname, hfind⟩ := (hcollected name text).mp hget
    obtain ⟨-, hreach⟩ := hprog.isUnitPath_of_reaches hbase rfl hname
    obtain ⟨text', hfind', hload⟩ := hprog.find_unit hbase rfl hreach
    cases hfind.symm.trans hfind'
    obtain ⟨m, hm, hid⟩ := Resolver.finished_of_reachable hg hprog.injOn_id hreach
    obtain ⟨loc, hloc, hread', hid', -⟩ := Resolver.whole_of_visit rfl hg m hm
    obtain rfl := hprog.injOn_id hloc.located hreach.located (hid'.symm.trans hid)
    obtain ⟨-, q, hq, hnormal, hfile⟩ := hprog.exists_file_of_located hreach.located
    cases hq
    exact ⟨m, hm, hid.trans (hprog.id_of_isFile hnormal hfile),
      Except.ok.inj (hread'.symm.trans hload)⟩
  refine ⟨c, g, hc, hbase ▸ hg, rfl, ?_, hmodule, ?_⟩
  · apply Set.Subset.antisymm
    · rintro _ ⟨name, hname, rfl⟩
      have hcontains : c.sources.contains name = true := hname
      rw [Dict.contains_eq_isSome_get?] at hcontains
      obtain ⟨text, hget⟩ := Option.isSome_iff_exists.mp hcontains
      obtain ⟨m, hm, hid, -⟩ := hmodule name text hget
      exact List.mem_map.mpr ⟨m, hm, hid⟩
    · intro id hid
      obtain ⟨m, hm, rfl⟩ := List.mem_map.mp hid
      obtain ⟨loc, hloc, hid⟩ := Resolver.reachable_of_finished hg hm
      obtain ⟨name, hname, rfl⟩ := hprog.exists_unit hbase rfl hloc
      obtain ⟨text, hfind, -⟩ := hprog.find_unit hbase rfl hloc
      have hget := (hcollected name text).mpr ⟨hname, hfind⟩
      refine ⟨name, ?_, ?_⟩
      · have hcontains : c.sources.contains name = true := by
          rw [Dict.contains_eq_isSome_get?, hget]
          rfl
        exact hcontains
      · obtain ⟨-, q, hq, hnormal, hfile⟩ := hprog.exists_file_of_located hloc.located
        cases hq
        exact (hprog.id_of_isFile hnormal hfile).symm.trans hid
  · refine packages_of_run hc fun name text hname hfind raw hraw => ?_
    obtain ⟨-, hreach⟩ := hprog.isUnitPath_of_reaches hbase rfl hname
    obtain ⟨text', hfind', hload⟩ := hprog.find_unit hbase rfl hreach
    cases hfind.symm.trans hfind'
    simp [ImportKind.of, hprog.imports _ _ hreach hload raw hraw]

/-- A program in which two names lead to one file, and imports come back to the root. -/
def twoNames : MemoryFiles :=
  .ofList [("src/app/Main.sol", "import \"./A.sol\"; import \"../lib/B.sol\";"),
    ("src/app/A.sol", "import \"../app/Main.sol\";"),
    ("src/lib/B.sol", "import \"../app/A.sol\";")]

/-- Five units stand for three modules. -/
theorem collect_flatten_twoNames :
    let r := Resolver.inMemory twoNames none { dependencyDirs := ["lib"], strict := true }
    let l := ofRoot (.inMemory twoNames none { dependencyDirs := ["lib"], strict := false })
      ⟨"./src/app/Main.sol"⟩
    let p : Path := ⟨"src/app/Main.sol"⟩
    ∃ out, twoNames.IsTree ∧ l.base = .file p ∧ p.isAbsolute = false ∧
      (∀ loc text, r.Reachable l.base loc → r.load loc = .ok text →
        ∀ raw ∈ importPaths text, startsRelative raw = true) ∧
      r.flatten ⟨"./src/app/Main.sol"⟩ = .ok out ∧
      out.modules = ["src/app/A.sol", "src/lib/B.sol", "src/app/Main.sol"] ∧
      ∃ c g, l.collect = .ok c ∧
        c.sources.keys = ["../app/A.sol", "../app/Main.sol", "../lib/B.sol", "A.sol", "Main.sol"] ∧
        r.visit l.base .empty = ⟨g, none⟩ ∧ out = g.flattened ∧
        (fun name => (p.directory.join ⟨name⟩).normalize.text) ''
          {name | c.sources.contains name} = {id | id ∈ out.modules} ∧
        (∀ name text, c.sources.get? name = some text →
          ∃ m ∈ g.modules, m.id = (p.directory.join ⟨name⟩).normalize.text ∧ m.text = text) ∧
        c.packages = ∅ := by
  intro r l p
  have htree : twoNames.IsTree := ⟨by decide +kernel, by decide +kernel, by decide +kernel⟩
  have hbase : l.base = .file p := by decide +kernel
  have hrel : p.isAbsolute = false := by decide
  have hraw : ∀ e ∈ Resolver.memoryEntries twoNames none, ∀ raw ∈ importPaths e.2,
      startsRelative raw = true := by decide +kernel
  have himports : ∀ loc text, r.Reachable l.base loc → r.load loc = .ok text →
      ∀ raw ∈ importPaths text, startsRelative raw = true := fun loc text _ hload =>
    hraw (loc.key, text) (Resolver.mem_memoryEntries_of_load hload)
  have hmodules : (r.flatten ⟨"./src/app/Main.sol"⟩).map (·.modules) =
      .ok ["src/app/A.sol", "src/lib/B.sol", "src/app/Main.sol"] := by decide +kernel
  have hunits : l.collect.map (·.sources.keys) =
      .ok ["../app/A.sol", "../app/Main.sol", "../lib/B.sol", "A.sol", "Main.sol"] := by
    decide +kernel
  cases hflat : r.flatten ⟨"./src/app/Main.sol"⟩ with
  | error e =>
    rw [hflat] at hmodules
    cases hmodules
  | ok out =>
    obtain ⟨c, g, hc, hrest⟩ :=
      collect_flatten twoNames none ["lib"] false _ p out htree hbase hrel himports hflat
    rw [hflat] at hmodules
    rw [hc] at hunits
    exact ⟨out, htree, hbase, hrel, himports, rfl, Except.ok.inj hmodules, c, g, hc,
      Except.ok.inj hunits, hrest⟩

end UnitLookup

end ContractBuild
