import ContractBuild.Proofs.Collection.Closure
import ContractBuild.Proofs.Collection.SameProgram

/-!
# Units that only relative imports lead to

A relative import means the file beside the importing one, and a walk never looks for it anywhere
else (`Resolver.locate_of_startsRelative`). A collection turns the import into the name of a unit
first and looks for the name, which is no longer written as a relative path.

- **Imports of units** (`Collected.OnlyRelatively`): all that leads to a unit is relative.
- **Where a unit is found** (`Resolver.locate_file_cases`): at its place, seen from the directory of
  the root, or in the dependency directories or a remote repository if there is no file there.

Main statement: `relative_units`. The second possibility is met (`relative_unit_from_dependency`).
-/

namespace ContractBuild

open Solidity ContractBuild.Path

/-! ## Imports of units -/

namespace Collected

variable {c : Collected} {name raw u : String}

/-- Every import that leads to a unit is written relative to the unit it stands in. -/
def OnlyRelatively (c : Collected) (u : String) : Prop :=
  ∀ name raw next, c.Imports name raw next → c.LeadsTo next u → startsRelative raw = true

theorem onlyRelatively_of_entries
    (h : ∀ e ∈ c.sources.entries, ∀ raw ∈ importPaths e.2, startsRelative raw = true)
    (u : String) : c.OnlyRelatively u := by
  rintro name raw next ⟨text, hget, hraw, -⟩ -
  exact h _ (Dict.mem_entries_of_get? hget) raw hraw

end Collected

/-! ## Where a unit is found -/

namespace Resolver

variable {r : Resolver}

/-- The first of the files that an import can stand at in the dependency directories. -/
theorem locateFile?_of_missing {dir : Path} {raw : String}
    (h : r.view.isFile (dir.join ⟨raw⟩).normalize = false) (kind : ImportKind) :
    r.locateFile? dir raw kind =
      match kind with
      | .dependencyRoot => r.locateDependency? dir raw
      | _ => none := by
  cases kind <;> simp [locateFile?, firstFile?, candidates, h, locateDependency?]

/-- **Where an import of a local file is found.** A file beside the importer goes before everything
else. Without one, an import that is not relative is looked for in the dependency directories, and
then in a remote repository. -/
theorem locate_file_cases {p : Path} {raw : String} {loc : Location}
    (h : r.locate (.file p) raw = some loc) :
    (r.view.isFile (p.directory.join ⟨raw⟩).normalize = true ∧
      loc = .file (p.directory.join ⟨raw⟩).normalize) ∨
    (r.view.isFile (p.directory.join ⟨raw⟩).normalize = false ∧ ImportKind.of raw ≠ .relative ∧
      (r.locateDependency? p.directory raw = some loc ∨
        r.locateDependency? p.directory raw = none ∧
          ∃ ref, RemoteRef.parse? raw = some ref ∧ loc = .remote ref)) := by
  cases hf : r.view.isFile (p.directory.join ⟨raw⟩).normalize with
  | true =>
    rw [locate_of_isFile hf, Option.some.injEq] at h
    exact .inl ⟨rfl, h.symm⟩
  | false =>
    refine .inr ⟨rfl, ?_⟩
    unfold locate at h
    cases hkind : ImportKind.of raw with
    | relative => simp [hkind, locateFile?_of_missing hf] at h
    | dependencyRoot =>
      simp only [hkind, locateFile?_of_missing hf] at h
      exact ⟨by simp, .inl h⟩
    | remoteRepository =>
      simp only [hkind, locateFile?_of_missing hf] at h
      refine ⟨by simp, ?_⟩
      rcases Option.or_eq_some_iff.mp h with h | ⟨hnone, h⟩
      · exact .inl h
      · obtain ⟨ref, href, rfl⟩ := Option.map_eq_some_iff.mp h
        exact .inr ⟨hnone, ref, href, rfl⟩

end Resolver

namespace UnitLookup

variable {l : UnitLookup}

/-- The root unit stands at the root, if the root has a file name. -/
theorem normalize_join_rootUnit {p : Path} (hb : l.base = .file p) (hp : p.normalize = p)
    (hname : p.fileName? ≠ none) : (p.directory.join ⟨l.rootUnit⟩).normalize = p := by
  obtain ⟨s, hs⟩ := Option.ne_none_iff_exists'.mp hname
  obtain ⟨before, ht⟩ := trail_of_fileName? hp hs
  have hroot : l.rootUnit = s := by
    unfold rootUnit
    rw [hb]
    simp [hs]
  rw [hroot]
  exact normalize_join_name hp ht

/-- The root of a resolver is a normal form. -/
theorem normalize_of_base {r : Resolver} {root p : Path} (h : (ofRoot r root).base = .file p) :
    p.normalize = p := by
  have hnormal := r.normalize_path_rootLocation root
  have hbase : r.rootLocation root = .file p := h
  rwa [hbase] at hnormal

/-- **Where a unit is found that only relative imports lead to.** For sources in memory, any remote
and any dependency directories: the text that is collected is that of the file at the place of the
unit, seen from the directory of the root, as long as there is a file. If there is none, and the
unit does not lie above that directory, it is taken from the dependency directories or from a remote
repository all the same. A root whose path ends in parent steps stands for itself. -/
theorem relative_units (files : MemoryFiles) (remote : Remote) (settings : ResolverSettings)
    (root p : Path) (c : Collected) (u text : String) :
    let l := ofRoot ⟨files.view, remote, settings⟩ root
    let place := (p.directory.join ⟨u⟩).normalize
    l.base = .file p → l.collect = .ok c → c.sources.get? u = some text → c.OnlyRelatively u →
    files.read place = .ok text ∨
    (files.isFile place = false ∧ startsRelative u = false ∧
      (∃ name raw, c.Imports name raw u ∧ startsRelative raw = true) ∧
      ∃ loc, l.resolver.load loc = .ok text ∧
        (l.resolver.locateDependency? p.directory u = some loc ∨
          l.resolver.locateDependency? p.directory u = none ∧
            ∃ ref, RemoteRef.parse? u = some ref ∧ loc = .remote ref)) ∨
    (u = l.rootUnit ∧ p.fileName? = none ∧ files.read p = .ok text) := by
  intro l place hbase hc hu hrel
  obtain ⟨-, hfind⟩ := (get?_of_run hc u text).mp hu
  rcases find_ok hfind with ⟨hroot, hload⟩ | ⟨hne, loc, hl, hload⟩
  · rw [hbase] at hload
    by_cases hname : p.fileName? = none
    · exact .inr (.inr ⟨hroot, hname, hload⟩)
    · have hplace : place = p := by
        rw [← normalize_join_rootUnit hbase (normalize_of_base hbase) hname, ← hroot]
      rw [hplace]
      exact .inl hload
  · rw [hbase] at hl
    rcases Resolver.locate_file_cases hl with ⟨-, rfl⟩ | ⟨hmissing, hkind, hloc⟩
    · exact .inl hload
    · obtain ⟨name, raw, himports⟩ := exists_imports hc hu hne
      exact .inr (.inl ⟨hmissing, startsRelative_of_kind hkind,
        ⟨name, raw, himports, hrel name raw u himports .refl⟩, loc, hload, hloc⟩)

/-- Two units below the directory of the root, the second of them also among the dependencies. -/
def nestedUnits : MemoryFiles :=
  .ofList [("s/M.sol", "import \"./a/A.sol\";"), ("s/a/A.sol", "import \"../B.sol\";"),
    ("s/B.sol", "contract B \x7b\x7d"), ("lib/B.sol", "contract Other \x7b\x7d")]

theorem relative_units_nested :
    let l := ofRoot ⟨nestedUnits.view, .disabled, {}⟩ ⟨"s/M.sol"⟩
    let c : Collected := ⟨.ofList [("M.sol", "import \"./a/A.sol\";"),
      ("a/A.sol", "import \"../B.sol\";"), ("B.sol", "contract B \x7b\x7d")], ∅⟩
    l.base = .file ⟨"s/M.sol"⟩ ∧ l.collect = .ok c ∧
    c.sources.get? "B.sol" = some "contract B \x7b\x7d" ∧ c.OnlyRelatively "B.sol" ∧
    nestedUnits.read ⟨"s/B.sol"⟩ = .ok "contract B \x7b\x7d" := by
  intro l c
  have hbase : l.base = .file ⟨"s/M.sol"⟩ := by decide +kernel
  have hc : l.collect = .ok c := by decide +kernel
  have hu : c.sources.get? "B.sol" = some "contract B \x7b\x7d" := by decide +kernel
  have hrel : c.OnlyRelatively "B.sol" :=
    Collected.onlyRelatively_of_entries (by decide +kernel) _
  have hplace : ((Path.mk "s/M.sol").directory.join ⟨"B.sol"⟩).normalize = ⟨"s/B.sol"⟩ := by decide
  have hfile : nestedUnits.isFile ⟨"s/B.sol"⟩ = true := by decide +kernel
  refine ⟨hbase, hc, hu, hrel, ?_⟩
  rcases relative_units nestedUnits .disabled {} ⟨"s/M.sol"⟩ ⟨"s/M.sol"⟩ c "B.sol" _ hbase hc hu
    hrel with hread | ⟨hmissing, -⟩ | ⟨-, hname, -⟩
  · rwa [hplace] at hread
  · rw [hplace, hfile] at hmissing
    cases hmissing
  · exact absurd hname (by decide)

/-- **A relative import is satisfied from a dependency directory.** The import of `./B.sol` becomes
the unit `B.sol`, which is looked for like any other name. A walk does not find it. -/
theorem relative_unit_from_dependency :
    let files : MemoryFiles := .ofList [("s/A.sol", "import \"./B.sol\";"),
      ("node_modules/B.sol", "contract B \x7b\x7d")]
    let l := ofRoot ⟨files.view, .disabled, {}⟩ ⟨"s/A.sol"⟩
    let c : Collected := ⟨.ofList [("A.sol", "import \"./B.sol\";"),
      ("B.sol", "contract B \x7b\x7d")], ∅⟩
    l.base = .file ⟨"s/A.sol"⟩ ∧ l.collect = .ok c ∧
    c.sources.get? "B.sol" = some "contract B \x7b\x7d" ∧ c.OnlyRelatively "B.sol" ∧
    files.isFile ((Path.mk "s/A.sol").directory.join ⟨"B.sol"⟩).normalize = false ∧
    l.resolver.locate l.base "./B.sol" = none := by
  intro files l c
  refine ⟨by decide +kernel, by decide +kernel, by decide +kernel,
    Collected.onlyRelatively_of_entries (by decide +kernel) _, by decide +kernel, by decide +kernel⟩

end UnitLookup

end ContractBuild
