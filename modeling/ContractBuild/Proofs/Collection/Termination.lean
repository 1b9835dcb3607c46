import ContractBuild.Proofs.Collection.UnitNames
import ContractBuild.Proofs.Collection.Worklist
import Mathlib.Tactic.Linarith

/-!
# When a collection ends

Units are told apart by name, and a file may have many names. A collection ends if only finitely
many of them are found.

- **Where units are found** (`locate_cases`): from the directory of the root or from one that holds
  dependencies, or under the name of a remote file.
- **The names that are found** (`collectable`): the root, paths as they are written, and spellings
  of the ends of the names that the sources are held under (`mem_collectable`).

Main statement: `collect_ends`. Both of its conditions are needed (`collect_endless`): above the
root of all paths there is the root again, so parent steps in front of a name say nothing there, and
a remote name says nothing behind the end of a line.
-/

namespace ContractBuild

open Solidity ContractBuild.Path

/-! ## Where units are found -/

namespace Location

/-- The path of a location in its tree or repository. -/
def path : Location → Path
  | file p => p
  | remote ref => ref.path

/-- The name under which memory holds the text of a location. -/
def key : Location → String
  | file p => MemoryFiles.key p
  | remote ref => ref.id

theorem innerSteps_path_suffix_key {loc : Location} (h : loc.path.normalize = loc.path) :
    innerSteps loc.path.text.toList <:+ innerSteps loc.key.toList := by
  cases loc with
  | file p => rw [key, MemoryFiles.key, show p.normalize = p from h, path]
  | remote ref => exact ref.innerSteps_path_suffix

theorem length_path_le_key {loc : Location} (h : loc.path.normalize = loc.path) :
    loc.path.text.length ≤ loc.key.length := by
  cases loc with
  | file p => rw [key, MemoryFiles.key, show p.normalize = p from h, path]
  | remote ref =>
    simp only [path, key, RemoteRef.id, String.length_append]
    omega

end Location

theorem startsRelative_of_kind {raw : String} (h : ImportKind.of raw ≠ .relative) :
    startsRelative raw = false := by
  by_contra hs
  rw [Bool.not_eq_false] at hs
  simp [ImportKind.of, hs] at h

namespace Resolver

variable {r : Resolver}

theorem mem_dependencyCandidates {start p : Path} {raw : String}
    (h : p ∈ r.dependencyCandidates start raw) : ∃ d : Path, p = (d.join ⟨raw⟩).normalize := by
  obtain ⟨d, -, rfl⟩ := List.mem_map.mp h
  exact ⟨d, rfl⟩

theorem mem_candidates {dir p : Path} {raw : String} {kind : ImportKind}
    (h : p ∈ r.candidates dir raw kind) :
    p = (dir.join ⟨raw⟩).normalize ∨
      kind = .dependencyRoot ∧ ∃ d : Path, p = (d.join ⟨raw⟩).normalize := by
  rcases List.mem_cons.mp h with rfl | h
  · exact .inl rfl
  · split at h
    · exact .inr ⟨rfl, mem_dependencyCandidates h⟩
    · cases h

/-- All the places where an import is found: seen from the importer, seen from somewhere else if it
is not written relative to a file, or where it names a remote file itself. -/
theorem locate_cases {base loc : Location} {raw : String} (h : r.locate base raw = some loc) :
    loc.path = (base.path.directory.join ⟨raw⟩).normalize ∨
    (startsRelative raw = false ∧ ∃ d : Path, loc.path = (d.join ⟨raw⟩).normalize) ∨
    ∃ ref, RemoteRef.parse? raw = some ref ∧ loc = .remote ref := by
  have hfile {dir : Path} {kind : ImportKind} (hl : r.locateFile? dir raw kind = some loc)
      (hk : kind = .dependencyRoot → startsRelative raw = false) :
      loc.path = (dir.join ⟨raw⟩).normalize ∨
        startsRelative raw = false ∧ ∃ d : Path, loc.path = (d.join ⟨raw⟩).normalize := by
    obtain ⟨p, hp, rfl, -⟩ := firstFile?_eq_some hl
    exact (mem_candidates hp).imp_right fun ⟨hd, hex⟩ => ⟨hk hd, hex⟩
  have hparse {o : Option RemoteRef} (ho : o.map Location.remote = some loc) :
      ∃ ref, o = some ref ∧ loc = .remote ref := by
    obtain ⟨ref, href, rfl⟩ := Option.map_eq_some_iff.mp ho
    exact ⟨ref, href, rfl⟩
  unfold locate at h
  split at h
  · rename_i hkind
    have hs : startsRelative raw = false := startsRelative_of_kind (by simp [hkind])
    rcases Option.or_eq_some_iff.mp h with h | ⟨-, h⟩
    · exact (hfile h fun _ => hs).imp_right .inl
    · exact .inr (.inr (hparse h))
  · exact .inr (.inr (hparse h))
  · rename_i kind p _ _
    refine (hfile h fun hk => startsRelative_of_kind ?_).imp_right .inl
    rw [hk]
    simp
  · rename_i ref hkind
    have hs : startsRelative raw = false := startsRelative_of_kind (by simp [hkind])
    rcases Option.or_eq_some_iff.mp h with h | ⟨-, h⟩
    · obtain ⟨p, hp, rfl, -⟩ := firstFile?_eq_some h
      exact .inr (.inl ⟨hs, mem_dependencyCandidates hp⟩)
    · cases h
      exact .inl rfl
  · cases h
    exact .inl rfl

/-- A file beside the importer goes before everything else. -/
theorem locate_of_isFile {p : Path} {raw : String}
    (h : r.view.isFile (p.directory.join ⟨raw⟩).normalize = true) :
    r.locate (.file p) raw = some (.file (p.directory.join ⟨raw⟩).normalize) := by
  have hfile (kind : ImportKind) : r.locateFile? p.directory raw kind =
      some (.file (p.directory.join ⟨raw⟩).normalize) := by
    simp [locateFile?, firstFile?, candidates, h]
  unfold locate
  cases ImportKind.of raw <;> simp [hfile]

theorem normalize_path_rootLocation (r : Resolver) (root : Path) :
    (r.rootLocation root).path.normalize = (r.rootLocation root).path := by
  unfold rootLocation
  split
  · rename_i ref href
    obtain ⟨_, _, _, -, rfl⟩ := RemoteRef.exists_of_parse? href
    exact normalize_normalize _
  · exact normalize_normalize _

/-! ## The names that are found -/

/-- The entries of sources in memory. -/
def memoryEntries (files : MemoryFiles) (remote : Option (Dict String)) :
    List (String × String) :=
  files.texts.entries ++ remote.elim [] Dict.entries

section

variable {files : MemoryFiles} {remote : Option (Dict String)} {settings : ResolverSettings}

theorem length_flatMap_memoryEntries_le {β : Type} (files : MemoryFiles)
    (remote : Option (Dict String)) (settings : ResolverSettings)
    {f : String × String → List β} (h : ∀ e, (f e).length ≤ e.1.length + e.2.length + 1) :
    ((memoryEntries files remote).flatMap f).length ≤
      (inMemory files remote settings).view.size +
        (inMemory files remote settings).remote.size := by
  rw [memoryEntries, List.flatMap_append, List.length_append]
  refine Nat.add_le_add (MemoryFiles.length_flatMap_le_weight files.texts h) ?_
  cases remote with
  | none => exact Nat.le_refl 0
  | some d => exact MemoryFiles.length_flatMap_le_weight d h

theorem length_lt_of_mem_memoryEntries {e : String × String} (he : e ∈ memoryEntries files remote)
    (settings : ResolverSettings) : e.1.length + e.2.length <
      (inMemory files remote settings).view.size +
        (inMemory files remote settings).remote.size := by
  have hall := length_flatMap_memoryEntries_le files remote settings
    (f := fun e => List.replicate (e.1.length + e.2.length + 1) ()) (by simp)
  have hsub : (List.replicate (e.1.length + e.2.length + 1) ()).Sublist
      ((memoryEntries files remote).flatMap fun e =>
        List.replicate (e.1.length + e.2.length + 1) ()) :=
    List.sublist_flatten_of_mem (List.mem_map.mpr ⟨e, he, rfl⟩)
  have hone := hsub.length_le
  rw [List.length_replicate] at hone
  exact Nat.lt_of_succ_le (hone.trans hall)

/-- Whatever is read is one of the sources. -/
theorem mem_memoryEntries_of_load {loc : Location} {text : String}
    (h : (inMemory files remote settings).load loc = .ok text) :
    (loc.key, text) ∈ memoryEntries files remote := by
  rw [memoryEntries, List.mem_append]
  cases loc with
  | file p => exact .inl (MemoryFiles.mem_entries_of_read h)
  | remote ref =>
    cases remote with
    | none => cases h
    | some d => exact .inr (Remote.mem_entries_of_fetch h)

/-- The ends of the names that the sources are held under. -/
def unitEnds (files : MemoryFiles) (remote : Option (Dict String)) : List (List Component) :=
  (memoryEntries files remote).flatMap fun e => (innerSteps e.1.toList).tails

/-- The paths that the sources import, as they are written. -/
def writtenPaths (files : MemoryFiles) (remote : Option (Dict String)) : List String :=
  (memoryEntries files remote).flatMap fun e => importPaths e.2

/-- The names under which a unit can be found, with up to `n` parent steps in front. -/
def collectable (files : MemoryFiles) (remote : Option (Dict String)) (root : String) (n : Nat) :
    Finset String :=
  (root :: (writtenPaths files remote ++ spellings n (unitEnds files remote))).toFinset

theorem length_importPaths_le (text : String) : (importPaths text).length ≤ text.length := by
  simpa [SourceModule.parse] using SourceModule.length_imports_parse_le "" text

/-- **The bound on the steps is enough for the names that can be found.** -/
theorem card_collectable_le (files : MemoryFiles) (remote : Option (Dict String))
    (settings : ResolverSettings) (base : Location) :
    let l : UnitLookup := ⟨inMemory files remote settings, base⟩
    let size := l.resolver.view.size + l.resolver.remote.size
    1 + size * (collectable files remote l.rootUnit (2 * size)).card ≤ l.bound := by
  intro l size
  have hends : (unitEnds files remote).length ≤ size := by
    refine length_flatMap_memoryEntries_le files remote settings fun e => ?_
    have := length_innerSteps_le e.1.toList
    rw [List.length_tails, ← String.length_toList]
    omega
  have hwritten : (writtenPaths files remote).length ≤ size := by
    refine length_flatMap_memoryEntries_le files remote settings fun e => ?_
    have := length_importPaths_le e.2
    omega
  have hcard : (collectable files remote l.rootUnit (2 * size)).card ≤
      1 + (size + (2 * size + 3) * size) := by
    refine (List.toFinset_card_le _).trans ?_
    rw [List.length_cons, List.length_append, length_spellings, Nat.add_comm]
    exact Nat.add_le_add_left (Nat.add_le_add hwritten (Nat.mul_le_mul_left _ hends)) 1
  calc 1 + size * (collectable files remote l.rootUnit (2 * size)).card
      ≤ 1 + size * (1 + (size + (2 * size + 3) * size)) :=
        Nat.add_le_add_left (Nat.mul_le_mul_left _ hcard) 1
    _ ≤ 1 * (size + 2) * (size + 2) * (size + 2) * (size + 2) := by
        nlinarith [Nat.zero_le (size * size * size * size), Nat.zero_le (size * size * size)]
    _ = Nat.pow (size + 2) 4 := rfl
    _ ≤ l.bound := Nat.pow_le_pow_left (by omega) 4

theorem mem_unitEnds {e : String × String} (he : e ∈ memoryEntries files remote)
    {last : List Component} (hl : last <:+ innerSteps e.1.toList) :
    last ∈ unitEnds files remote :=
  List.mem_flatMap.mpr ⟨e, he, (List.mem_tails _ _).mpr hl⟩

/-- A normal form that is located and read is a spelling of the ends of what it leads to. -/
theorem mem_spellings_of_locate {base loc : Location} {u : Path} {text : String} {n : Nat}
    (hu : u.normalize = u) (hd : base.path.directory.isAbsolute = false)
    (hline : remote = none ∨ '\n' ∉ u.text.toList)
    (hl : (inMemory files remote settings).locate base u.text = some loc)
    (ht : (inMemory files remote settings).load loc = .ok text) (hn : 1 ≤ n)
    (hlen : base.path.directory.trail.length + loc.key.length ≤ n) :
    u.text ∈ spellings n (unitEnds files remote) := by
  have hentry := mem_memoryEntries_of_load ht
  have hends (hp : loc.path.normalize = loc.path) : ∀ last,
      last <:+ innerSteps loc.path.text.toList → last ∈ unitEnds files remote :=
    fun last h => mem_unitEnds hentry (h.trans (Location.innerSteps_path_suffix_key hp))
  rcases locate_cases hl with h | ⟨hs, d, h⟩ | ⟨ref, href, rfl⟩
  · have hp : loc.path.normalize = loc.path := by rw [h, normalize_normalize]
    have hpath := Location.length_path_le_key hp
    replace hends := hends hp
    rw [h] at hends hpath
    exact mem_spellings_of_join hu hd ((Nat.add_le_add_left hpath _).trans hlen) hends
  · have hp : loc.path.normalize = loc.path := by rw [h, normalize_normalize]
    replace hends := hends hp
    rw [h] at hends
    exact mem_spellings_of_not_startsRelative hu hs hn d hends
  · rcases hline with rfl | hline
    · cases ht
    · exact RemoteRef.mem_spellings_of_parse? hu hline href n fun last h => mem_unitEnds hentry h

end

end Resolver

namespace UnitLookup

variable {l : UnitLookup}

/-- A unit that is found is the root or is located from it. -/
theorem find_ok {name text : String} (h : l.find name = .ok text) :
    (name = l.rootUnit ∧ l.resolver.load l.base = .ok text) ∨
    name ≠ l.rootUnit ∧
      ∃ loc, l.resolver.locate l.base name = some loc ∧ l.resolver.load loc = .ok text := by
  have hload {loc : Location}
      (h : (l.resolver.load loc).mapError (LookupError.unreadable name) = .ok text) :
      l.resolver.load loc = .ok text := by
    cases ht : l.resolver.load loc with
    | error cause =>
      rw [ht] at h
      cases h
    | ok t =>
      rw [ht] at h
      cases h
      rfl
  unfold find at h
  dsimp only at h
  by_cases hname : name = l.rootUnit
  · rw [if_pos (beq_iff_eq.mpr hname)] at h
    exact .inl ⟨hname, hload h⟩
  · rw [if_neg (by simpa using hname)] at h
    split at h
    · cases h
    · rename_i loc hl
      exact .inr ⟨hname, loc, hl, hload h⟩

theorem find_of_locate {name text : String} {loc : Location} (hne : name ≠ l.rootUnit)
    (hl : l.resolver.locate l.base name = some loc) (ht : l.resolver.load loc = .ok text) :
    l.find name = .ok text := by
  unfold find
  rw [if_neg (by simpa using hne), hl]
  dsimp only
  rw [ht]
  rfl

/-- A unit at which there is a file, seen from the directory of the root. -/
theorem find_of_read {p : Path} (hb : l.base = .file p) {name text : String}
    (hroot : name = l.rootUnit → (p.directory.join ⟨name⟩).normalize = p)
    (hf : l.resolver.view.isFile (p.directory.join ⟨name⟩).normalize = true)
    (ht : l.resolver.view.read (p.directory.join ⟨name⟩).normalize = .ok text) :
    l.find name = .ok text := by
  by_cases hname : name = l.rootUnit
  · have hload : l.resolver.load l.base = .ok text := by
      rw [hb, ← hroot hname]
      exact ht
    unfold find
    rw [if_pos (by simpa using hname)]
    dsimp only
    rw [hload]
    rfl
  · have hload : l.resolver.load (.file (p.directory.join ⟨name⟩).normalize) = .ok text := ht
    exact find_of_locate hname (by rw [hb]; exact Resolver.locate_of_isFile hf) hload

/-- Nothing is found unless the root can be read. -/
theorem Reaches.load_base {name text : String} (h : l.Reaches name) (ht : l.find name = .ok text) :
    ∃ text, l.resolver.load l.base = .ok text := by
  induction h generalizing text with
  | root =>
    rcases find_ok ht with ⟨-, hload⟩ | ⟨hne, -⟩
    · exact ⟨text, hload⟩
    · exact absurd rfl hne
  | step _ found _ ih => exact ih found

/-- Units are on one line, if the root and all imports are. -/
theorem Reaches.oneLine {name : String} (h : l.Reaches name) (hroot : '\n' ∉ l.rootUnit.toList)
    (hraw : ∀ name text, l.find name = .ok text → ∀ raw ∈ importPaths text, '\n' ∉ raw.toList) :
    '\n' ∉ name.toList := by
  induction h with
  | root => exact hroot
  | @step name text raw _ found imported ih =>
    have himport := hraw name text found raw imported
    unfold unitName
    split
    · intro hm
      have hjoined := mem_of_mem_normalize (by decide) hm
      rcases mem_of_mem_join (by decide) hjoined with hm | hm
      · exact ih (mem_of_mem_directory (by decide) hm)
      · exact himport hm
    · exact himport

section

variable {files : MemoryFiles} {remote : Option (Dict String)} {settings : ResolverSettings}
  {base : Location}

/-- The text of a unit that is found is one of the sources. -/
theorem exists_entry_of_find {name text : String}
    (h : find ⟨.inMemory files remote settings, base⟩ name = .ok text) :
    ∃ key, (key, text) ∈ Resolver.memoryEntries files remote := by
  rcases find_ok h with ⟨-, ht⟩ | ⟨-, loc, -, ht⟩
  · exact ⟨_, Resolver.mem_memoryEntries_of_load ht⟩
  · exact ⟨_, Resolver.mem_memoryEntries_of_load ht⟩

/-- **Units that are reached and found have one of finitely many names,** if the root is relative
and names are on one line. -/
theorem mem_collectable (hbase : base.path.normalize = base.path)
    (hrel : base.path.isAbsolute = false) :
    let l : UnitLookup := ⟨.inMemory files remote settings, base⟩
    let size := l.resolver.view.size + l.resolver.remote.size
    (remote = none ∨ ∀ name, l.Reaches name → '\n' ∉ name.toList) →
    ∀ name text, l.Reaches name → l.find name = .ok text →
      name ∈ Resolver.collectable files remote l.rootUnit (2 * size) ∧
        (importPaths text).length ≤ size := by
  intro l size hline name text hname htext
  -- whatever is found is in memory, so its name and its text are no longer than all of it
  have hsize {key text : String} (h : (key, text) ∈ Resolver.memoryEntries files remote) :
      key.length + text.length < size := Resolver.length_lt_of_mem_memoryEntries h settings
  obtain ⟨key, hentry⟩ := exists_entry_of_find htext
  have htextLength := hsize hentry
  refine ⟨?_, (Resolver.length_importPaths_le text).trans (by omega)⟩
  rw [Resolver.collectable, List.mem_toFinset, List.mem_cons, List.mem_append]
  have hlast := hname
  cases hlast with
  | root => exact .inl rfl
  | @step importer text' raw reached found imported =>
    by_cases hs : startsRelative raw = true
    · obtain ⟨u, hu, hunit⟩ : ∃ u : Path, u.normalize = u ∧ unitName importer raw = u.text :=
        ⟨_, normalize_normalize _, if_pos hs⟩
      rw [hunit] at hname htext ⊢
      rcases find_ok htext with ⟨hroot, -⟩ | ⟨-, loc, hl, ht⟩
      · exact .inl hroot
      · refine .inr (.inr ?_)
        obtain ⟨hdir, hdepth⟩ := directory_of_relative hbase hrel
        obtain ⟨rootText, hroot⟩ := hname.load_base htext
        have hrootLength : base.key.length + rootText.length < size :=
          hsize (Resolver.mem_memoryEntries_of_load hroot)
        have hlocLength := hsize (Resolver.mem_memoryEntries_of_load ht)
        have htrail := length_trail_le hbase hrel
        have hkey := Location.length_path_le_key hbase
        have hone : 1 ≤ 2 * size := by omega
        have hlen : base.path.directory.trail.length + loc.key.length ≤ 2 * size := by omega
        exact Resolver.mem_spellings_of_locate hu hdir
          (hline.imp_right fun h => h _ hname) hl ht hone hlen
    · obtain ⟨key', hentry'⟩ := exists_entry_of_find found
      refine .inr (.inl ?_)
      rw [unitName, if_neg hs]
      exact List.mem_flatMap.mpr ⟨_, hentry', imported⟩

end

/-- **A collection ends,** for sources in memory and a relative root. Its bound on the steps is
never reached, so more steps would not change the answer, and a lenient collection from a root that
can be read has a result. Where remote files can be fetched, the name of the root and the imports
have to be on one line. -/
theorem collect_ends (files : MemoryFiles) (remote : Option (Dict String))
    (settings : ResolverSettings) (root : Path) :
    let l := ofRoot (.inMemory files remote settings) root
    l.base.path.isAbsolute = false →
    (remote = none ∨ '\n' ∉ l.rootUnit.toList ∧ ∀ e ∈ Resolver.memoryEntries files remote,
      ∀ raw ∈ importPaths e.2, '\n' ∉ raw.toList) →
    (∀ name, l.collect ≠ .error (.endless name)) ∧
    (∀ n, l.bound ≤ n → l.run n l.start = l.collect) ∧
    (settings.strict = false → ∀ text, l.find l.rootUnit = .ok text → ∃ c, l.collect = .ok c) := by
  intro l hrel hline
  have hbase : l.base.path.normalize = l.base.path :=
    Resolver.normalize_path_rootLocation (.inMemory files remote settings) root
  have hnames : remote = none ∨ ∀ name, l.Reaches name → '\n' ∉ name.toList := by
    refine hline.imp_right fun ⟨hroot, hraw⟩ name hname => ?_
    refine hname.oneLine hroot fun importer text hfound => ?_
    obtain ⟨key, hentry⟩ := exists_entry_of_find hfound
    exact hraw (key, text) hentry
  have hends := run_ends (mem_collectable hbase hrel hnames)
    (Resolver.card_collectable_le files remote settings l.base)
  have hnever : ∀ name, l.collect ≠ .error (.endless name) := by
    intro name h
    rcases hends with ⟨c, hc⟩ | ⟨_, _, e, -, -, -, he, hne⟩
    · cases hc.symm.trans h
    · cases he.symm.trans h
      exact hne name rfl
  refine ⟨hnever, fun n hn => run_of_le hnever hn, fun hs text ht => ?_⟩
  rcases hends with hc | ⟨name, cause, e, -, hcause, rfl | hstrict, -⟩
  · exact hc
  · cases ht.symm.trans hcause
  · cases hs.symm.trans hstrict

/-- A root that comes back to itself by a parent step, and a remote file that does not. -/
def returning : MemoryFiles :=
  .ofList [("a/Main.sol", "import \"../a/Main.sol\"; import \"github.com/o/r/b/X.sol\";")]

/-- The remote file that `returning` imports, and one beside its repository. -/
def returningRemote : Dict String :=
  .ofList [("github.com/o/r/b/X.sol", "import \"../../s/Y.sol\";"),
    ("github.com/o/s/Y.sol", "import \"../r/b/X.sol\";")]

theorem collect_ends_returning :
    let l := ofRoot (.inMemory returning (some returningRemote) {}) ⟨"a/Main.sol"⟩
    l.base.path.isAbsolute = false ∧ '\n' ∉ l.rootUnit.toList ∧
    (∀ e ∈ Resolver.memoryEntries returning (some returningRemote),
      ∀ raw ∈ importPaths e.2, '\n' ∉ raw.toList) ∧
    (∀ name, l.collect ≠ .error (.endless name)) ∧
    (∀ n, l.bound ≤ n → l.run n l.start = l.collect) ∧ ∃ c, l.collect = .ok c := by
  intro l
  have hrel : l.base.path.isAbsolute = false := by decide +kernel
  have hroot : '\n' ∉ l.rootUnit.toList := by decide +kernel
  have hraw : ∀ e ∈ Resolver.memoryEntries returning (some returningRemote),
      ∀ raw ∈ importPaths e.2, '\n' ∉ raw.toList := by decide +kernel
  have hread : l.find l.rootUnit =
      .ok "import \"../a/Main.sol\"; import \"github.com/o/r/b/X.sol\";" := by decide +kernel
  obtain ⟨hnever, hstable, hok⟩ := collect_ends returning (some returningRemote) {} ⟨"a/Main.sol"⟩
    hrel (.inr ⟨hroot, hraw⟩)
  exact ⟨hrel, hroot, hraw, hnever, hstable, hok rfl _ hread⟩

/-! ## Collections that do not end -/

/-- A file below the root of all paths that imports itself by a parent step. -/
def above : UnitLookup :=
  ofRoot (.inMemory (.ofList [("/Main.sol", "import \"../Main.sol\";")]) none {}) ⟨"/Main.sol"⟩

/-- A number of parent steps and the name of a file. -/
def climb (k : Nat) : Path := ofComponents (List.replicate k .up ++ [.name "Main.sol"])

theorem trail_climb (k : Nat) : (climb k).trail = .name "Main.sol" :: List.replicate k .up := by
  have htrail : Trail (.name "Main.sol" :: List.replicate k .up) := .name _ (.ups k)
  have hplain : ∀ c ∈ Component.name "Main.sol" :: List.replicate k .up,
      c = .root ∨ IsPlain c := by
    intro c hc
    rcases List.mem_cons.mp hc with rfl | hc
    · exact .inr (by unfold IsPlain; decide)
    · rw [List.eq_of_mem_replicate hc]
      exact .inr (by unfold IsPlain; decide)
  have h := trail_ofComponents htrail hplain
  rwa [List.reverse_cons, List.reverse_replicate] at h

theorem normalize_climb (k : Nat) : (climb k).normalize = climb k := by
  rw [normalize_eq, trail_climb, List.reverse_cons, List.reverse_replicate, climb]

theorem climb_injective : Function.Injective fun k => (climb k).text := by
  intro j k h
  have htrail : (climb j).trail.length = (climb k).trail.length :=
    congrArg (fun text => (Path.mk text).trail.length) h
  simpa [trail_climb] using htrail

theorem isAbsolute_climb (k : Nat) : (climb k).isAbsolute = false := by
  rw [← Bool.not_eq_true, ← root_mem_trail_iff, trail_climb]
  simp

/-- There is nothing above the root of all paths. -/
theorem normalize_join_climb (k : Nat) :
    ((Path.mk "/").join (climb k)).normalize = ⟨"/Main.sol"⟩ := by
  have hups : (List.replicate k .up).foldl follow [.root] = [.root] := by
    induction k with
    | zero => rfl
    | succ k ih => exact ih
  have hroot : (Path.mk "/").trail = [.root] := by decide
  rw [normalize_eq, trail_join_trail (isAbsolute_climb k), trail_climb, List.reverse_cons,
    List.reverse_replicate, List.foldl_append, hroot, hups]
  decide

theorem unitName_climb (k : Nat) :
    unitName (climb k).text "../Main.sol" = (climb (k + 1)).text := by
  have hs : startsRelative "../Main.sol" = true := by decide
  have hsteps : innerSteps "../Main.sol".toList = [.up, .name "Main.sol"] := by decide
  have hups : follow (List.replicate k .up) .up = List.replicate (k + 1) .up := by
    cases k <;> rfl
  have hdir := trail_directory (normalize_climb k) (trail_climb k) (by simp)
  have htrail : ((climb k).directory.join ⟨"../Main.sol"⟩).trail = (climb (k + 1)).trail := by
    rw [trail_join (by decide), hsteps, hdir, List.foldl_cons, List.foldl_cons, List.foldl_nil,
      hups, trail_climb]
    rfl
  rw [unitName, if_pos hs]
  exact congrArg Path.text ((normalize_eq_of_trail htrail).trans (normalize_climb _))

theorem find_climb (k : Nat) : above.find (climb k).text = .ok "import \"../Main.sol\";" := by
  have hdir : (Path.mk "/Main.sol").directory = ⟨"/"⟩ := by decide
  have hplace : ((Path.mk "/Main.sol").directory.join ⟨(climb k).text⟩).normalize =
      ⟨"/Main.sol"⟩ := by
    rw [hdir]
    exact normalize_join_climb k
  refine find_of_read (p := ⟨"/Main.sol"⟩) (by decide +kernel) (fun _ => hplace) ?_ ?_
  · rw [hplace]
    decide +kernel
  · rw [hplace]
    decide +kernel

theorem above_endless (n : Nat) : ∃ name, above.run n above.start = .error (.endless name) := by
  refine run_endless (fun k => (climb k).text) (fun _ => "import \"../Main.sol\";")
    (fun _ => "../Main.sol") climb_injective ?_ find_climb (fun _ => ?_) unitName_climb n
  · decide +kernel
  · decide +kernel

/-- A remote file that imports another one under a name with a line break, behind which the name
says nothing. -/
def broken : UnitLookup :=
  ofRoot (.inMemory .empty (some (.ofList
    [("github.com/o/r/M", "import \"github.com/o/r/x\n/w\";"),
     ("github.com/o/r/x", "import \"./z/w\";")])) {}) ⟨"github.com/o/r/M"⟩

/-- The steps of a name that goes on behind the line break, up to the last. -/
def brokenSteps (k : Nat) : List String := ["github.com", "o", "r", "x\n"] ++ List.replicate k "z"

/-- A name that goes on behind the line break. -/
def brokenPath (k : Nat) : Path := ofComponents ((brokenSteps k ++ ["w"]).map .name)

/-- The units of `broken`, in the order in which they are collected. -/
def brokenName : Nat → String
  | 0 => "github.com/o/r/M"
  | k + 1 => (brokenPath k).text

theorem trail_brokenPath (k : Nat) :
    (brokenPath k).trail = .name "w" :: ((brokenSteps k).map .name).reverse := by
  have hnames (names : List String) : Trail (names.map .name) := by
    induction names with
    | nil => exact .ups 0
    | cons s names ih => exact .name s ih
  have hplain : ∀ c ∈ (brokenSteps k ++ ["w"]).map Component.name, IsPlain c := by
    have hall : ∀ s ∈ ["github.com", "o", "r", "x\n", "z", "w"], IsPlain (.name s) := by
      unfold IsPlain
      decide
    intro c hc
    obtain ⟨s, hs, rfl⟩ := List.mem_map.mp hc
    refine hall s ?_
    simp only [brokenSteps, List.mem_append, List.mem_replicate, List.mem_cons] at hs ⊢
    tauto
  have htrail : Trail ((brokenSteps k ++ ["w"]).map .name).reverse := by
    rw [← List.map_reverse]
    exact hnames _
  have h := trail_ofComponents htrail fun c hc => .inr (hplain c (List.mem_reverse.mp hc))
  rw [List.reverse_reverse] at h
  rw [brokenPath, h, List.map_append, List.reverse_append]
  rfl

theorem normalize_brokenPath (k : Nat) : (brokenPath k).normalize = brokenPath k := by
  rw [normalize_eq, trail_brokenPath, List.reverse_cons, List.reverse_reverse, brokenPath,
    List.map_append]
  rfl

theorem toList_broken (k : Nat) : ∃ behind, (brokenName (k + 1)).toList =
    "github.com/o/r/x\n/".toList ++ behind := by
  refine ⟨slashed (((List.replicate k "z" ++ ["w"]).map Component.name).map (·.text.toList)), ?_⟩
  have hne : ((List.replicate k "z" ++ ["w"]).map Component.name).map (·.text.toList) ≠ [] := by
    simp
  have htext : (brokenName (k + 1)).toList =
      slashed (((brokenSteps k ++ ["w"]).map Component.name).map (·.text.toList)) := by
    simp [brokenName, brokenPath, brokenSteps, ofComponents]
  rw [htext, brokenSteps, List.append_assoc, List.map_append, List.map_append]
  simp only [List.map_cons, List.map_nil, List.cons_append, List.nil_append]
  rw [slashed_cons _ (by simp), slashed_cons _ (by simp), slashed_cons _ (by simp),
    slashed_cons _ hne]
  rfl

theorem parse?_broken (k : Nat) :
    RemoteRef.parse? (brokenName (k + 1)) = some ⟨"o/r", ⟨"x"⟩⟩ := by
  obtain ⟨behind, hb⟩ := toList_broken k
  have hhost : Text.literal "github.com/" (RemoteRef.optional "www."
      (RemoteRef.skipScheme ("github.com/o/r/x\n/".toList ++ behind))) =
      some ("o/r/x\n/".toList ++ behind) := rfl
  have howner : RemoteRef.segment? ("o/r/x\n/".toList ++ behind) =
      some (['o'], "r/x\n/".toList ++ behind) := rfl
  have hrepo : RemoteRef.segment? ("r/x\n/".toList ++ behind) =
      some (['r'], "x\n/".toList ++ behind) := rfl
  have hline : (Text.restOfLine ("x\n/".toList ++ behind)).1 = ['x'] := rfl
  have hpath : (Path.mk (String.ofList ['x'])).normalize = ⟨"x"⟩ := by decide
  rw [RemoteRef.parse?, hb]
  simp only [hhost, howner, hrepo, hline, hpath, Option.bind_eq_bind, Option.bind_some]
  rfl

theorem find_broken (k : Nat) : broken.find (brokenName (k + 1)) = .ok "import \"./z/w\";" := by
  have hbase : broken.base = .remote ⟨"o/r", ⟨"M"⟩⟩ := by decide +kernel
  have hroot : broken.rootUnit = "github.com/o/r/M" := by decide +kernel
  have hload : broken.resolver.load (.remote ⟨"o/r", ⟨"x"⟩⟩) = .ok "import \"./z/w\";" := by
    decide +kernel
  obtain ⟨behind, hb⟩ := toList_broken k
  have hkind : ImportKind.of (brokenName (k + 1)) = .remoteRepository := by
    simp [ImportKind.of, startsRelative, hb, parse?_broken]
  have hne : brokenName (k + 1) ≠ broken.rootUnit := by
    rw [hroot]
    intro h
    rw [h] at hb
    simp at hb
  refine find_of_locate hne ?_ hload
  unfold Resolver.locate
  rw [hbase, hkind, parse?_broken]
  rfl

theorem unitName_broken (k : Nat) :
    unitName (brokenName (k + 1)) "./z/w" = brokenName (k + 2) := by
  have hs : startsRelative "./z/w" = true := by decide
  have hsteps : innerSteps "./z/w".toList = [.name "z", .name "w"] := by decide
  have hdir := trail_directory (normalize_brokenPath k) (trail_brokenPath k) (by simp)
  have htrail : ((brokenPath k).directory.join ⟨"./z/w"⟩).trail = (brokenPath (k + 1)).trail := by
    rw [trail_join (by decide), hsteps, hdir, trail_brokenPath]
    simp [follow, brokenSteps, List.replicate_succ']
  rw [unitName, if_pos hs]
  exact congrArg Path.text ((normalize_eq_of_trail htrail).trans (normalize_brokenPath _))

theorem brokenName_injective : Function.Injective brokenName := by
  have hlength (k : Nat) : (Path.mk (brokenName (k + 1))).trail.length = k + 5 := by
    have htrail : (Path.mk (brokenName (k + 1))).trail = _ := trail_brokenPath k
    simp [htrail, brokenSteps]
  have hroot : (Path.mk (brokenName 0)).trail.length = 4 := by decide
  intro j k h
  have htrail := congrArg (fun text => (Path.mk text).trail.length) h
  cases j with
  | zero =>
    cases k with
    | zero => rfl
    | succ k =>
      simp only [hlength, hroot] at htrail
      omega
  | succ j =>
    cases k with
    | zero =>
      simp only [hlength, hroot] at htrail
      omega
    | succ k =>
      simp only [hlength] at htrail
      omega

/-- The texts of the units of `broken`. -/
def brokenText : Nat → String
  | 0 => "import \"github.com/o/r/x\n/w\";"
  | _ + 1 => "import \"./z/w\";"

/-- What the units of `broken` import. -/
def brokenImport : Nat → String
  | 0 => "github.com/o/r/x\n/w"
  | _ + 1 => "./z/w"

theorem broken_endless (n : Nat) : ∃ name, broken.run n broken.start = .error (.endless name) := by
  have hdeep : importPaths "import \"./z/w\";" = ["./z/w"] := by decide +kernel
  refine run_endless brokenName brokenText brokenImport brokenName_injective ?_ ?_ ?_ ?_ n
  · decide +kernel
  · intro k
    cases k with
    | zero => decide +kernel
    | succ k => exact find_broken k
  · intro k
    cases k with
    | zero => decide +kernel
    | succ k => exact hdeep
  · intro k
    cases k with
    | zero => decide +kernel
    | succ k => exact unitName_broken k

/-- **A collection from an absolute root may never end,** and neither may one with line breaks in
the names of remote files. -/
theorem collect_endless :
    (∀ n, ∃ name, above.run n above.start = .error (.endless name)) ∧
    ∀ n, ∃ name, broken.run n broken.start = .error (.endless name) :=
  ⟨above_endless, broken_endless⟩

end UnitLookup

end ContractBuild
