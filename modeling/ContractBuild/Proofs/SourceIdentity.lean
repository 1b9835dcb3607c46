import ContractBuild.Disk.Output
import ContractBuild.Proofs.Collection.SameProgram

/-!
# One id for one source

A walk tells modules apart by the ids of their locations. What a location denotes is said by the
sources: a key in memory, a place on a disk, a file of a remote repository.

- **Remote files** (`RemoteRef.eq_of_id`): owner and name of a repository hold no slash, so the id
  of a reference gives the reference back.
- **Local files**: imports lead to normal forms only (`Resolver.Located.isCanonical`), so ids tell
  them apart but for the two kinds of slashes.
- **Places on a disk** (`Disk.trail_of_locate`): where a path leads is what its steps say. A path
  that goes up and does not come back at once is the only one of its kind to a place
  (`Path.Direct.eq_of_trail`).

Main statement: `Resolver.id_eq_iff`. Where its conditions fail, files are left out or taken twice
(`Resolver.ids_not_sources`).
-/

namespace ContractBuild

open Solidity Text ContractBuild.Path

/-! ## References into remote repositories -/

/-- What stands before the first slash and what stands behind it. -/
theorem eq_of_append_slash {a b s t : List Char} (ha : '/' ∉ a) (hb : '/' ∉ b)
    (h : a ++ '/' :: s = b ++ '/' :: t) : a = b ∧ s = t := by
  rcases List.append_eq_append_iff.mp h with ⟨as, rfl, has⟩ | ⟨bs, rfl, hbs⟩
  · cases as with
    | nil => simpa using has
    | cons c as =>
      cases has
      simp at hb
  · cases bs with
    | nil => simpa using hbs.symm
    | cons c bs =>
      cases hbs
      simp at ha

namespace RemoteRef

theorem slash_notMem_of_segment? {cs name rest : List Char}
    (h : segment? cs = some (name, rest)) : '/' ∉ name := by
  have hall : '/' ∉ (spanOf (· != '/') cs).1 := fun hmem => by
    have := List.mem_takeWhile_imp hmem
    simp at this
  unfold segment? at h
  split at h
  · cases h
  · rename_i heq
    cases h
    rwa [heq] at hall
  · cases h

/-- The repository of a reference: an owner and a name without slashes. -/
def IsProper (ref : RemoteRef) : Prop :=
  ∃ owner repo : List Char, '/' ∉ owner ∧ '/' ∉ repo ∧
    ref.repository = String.ofList (owner ++ '/' :: repo)

theorem isProper_of_parse? {raw : String} {ref : RemoteRef} (h : parse? raw = some ref) :
    ref.IsProper := by
  simp only [parse?, Option.bind_eq_bind, Option.bind_eq_some_iff, Option.pure_def,
    Option.some.injEq, Prod.exists] at h
  obtain ⟨behind, -, owner, behind', howner, repo, rest, hrepo, rfl⟩ := h
  exact ⟨owner, repo, slash_notMem_of_segment? howner, slash_notMem_of_segment? hrepo, rfl⟩

/-- **The id of a reference gives the reference back.** -/
theorem eq_of_id {a b : RemoteRef} (ha : a.IsProper) (hb : b.IsProper) (h : a.id = b.id) :
    a = b := by
  obtain ⟨owner, repo, ho, hr, ha⟩ := ha
  obtain ⟨owner', repo', ho', hr', hb⟩ := hb
  have hlist : owner ++ '/' :: (repo ++ '/' :: a.path.text.toList) =
      owner' ++ '/' :: (repo' ++ '/' :: b.path.text.toList) := by
    simpa [toList_id, ha, hb] using congrArg String.toList h
  obtain ⟨rfl, hrest⟩ := eq_of_append_slash ho ho' hlist
  obtain ⟨rfl, hpath⟩ := eq_of_append_slash hr hr' hrest
  have htext : a.path = b.path := congrArg Path.mk (String.toList_injective hpath)
  cases a
  cases b
  simp_all

end RemoteRef

/-! ## What is located -/

namespace Location

/-- A normal form, or a reference with a proper repository. -/
def IsCanonical : Location → Prop
  | file p => p.normalize = p
  | remote ref => ref.IsProper

/-- Two locations whose ids say what they are: files without backslashes, and a file whose id does
not read like that of a remote file. -/
def ToldApart : Location → Location → Prop
  | file p, file q => '\\' ∉ p.text.toList ∧ '\\' ∉ q.text.toList
  | file p, remote _ | remote _, file p => ¬ "github.com/".toList <+: (file p).id.toList
  | remote _, remote _ => True

/-- Two locations denote the same source, where `place` says what the paths of a view lead to. -/
def SameSource {α : Type} (place : Path → α) : Location → Location → Prop
  | file p, file q => place p = place q
  | remote a, remote b => a = b
  | file _, remote _ | remote _, file _ => False

theorem SameSource.refl {α : Type} (place : Path → α) (a : Location) : a.SameSource place a := by
  cases a <;> rfl

theorem prefix_id_remote (ref : RemoteRef) : "github.com/".toList <+: (remote ref).id.toList :=
  ⟨ref.repository.toList ++ '/' :: ref.path.text.toList, by rw [id, RemoteRef.toList_id]; rfl⟩

/-- **Ids tell locations apart.** -/
theorem eq_of_id {a b : Location} (ha : a.IsCanonical) (hb : b.IsCanonical) (hab : a.ToldApart b)
    (h : a.id = b.id) : a = b := by
  cases a with
  | file p =>
    cases b with
    | file q =>
      rw [id_file hab.1, id_file hab.2] at h
      exact congrArg (file ⟨·⟩) h
    | remote ref => exact absurd (h ▸ prefix_id_remote ref) hab
  | remote ref =>
    cases b with
    | file q => exact absurd (h ▸ prefix_id_remote ref) hab
    | remote ref' => exact congrArg remote (RemoteRef.eq_of_id ha hb h)

end Location

namespace Resolver

variable {r : Resolver}

theorem isCanonical_rootLocation (r : Resolver) (root : Path) :
    (r.rootLocation root).IsCanonical := by
  unfold rootLocation
  split
  · rename_i ref href
    exact RemoteRef.isProper_of_parse? href
  · exact normalize_normalize _

/-- An import leads to normal forms, and to references with proper repositories. -/
theorem isCanonical_of_locate {loc target : Location} {raw : String} (hloc : loc.IsCanonical)
    (h : r.locate loc raw = some target) : target.IsCanonical := by
  cases target with
  | file p => exact (isFile_of_locate h).2
  | remote ref =>
    have hparse (h : (RemoteRef.parse? raw).map Location.remote = some (.remote ref)) :
        ref.IsProper := by
      obtain ⟨ref', href, hremote⟩ := Option.map_eq_some_iff.mp h
      cases hremote
      exact RemoteRef.isProper_of_parse? href
    have hfile {paths : List Path} (h : r.firstFile? paths = some (.remote ref)) : False := by
      obtain ⟨p, -, hp, -⟩ := firstFile?_eq_some h
      cases hp
    unfold locate at h
    split at h
    · rcases Option.or_eq_some_iff.mp h with h | ⟨-, h⟩
      · exact (hfile h).elim
      · exact hparse h
    · exact hparse h
    · exact (hfile h).elim
    · rcases Option.or_eq_some_iff.mp h with h | ⟨-, h⟩
      · exact (hfile h).elim
      · cases h
        exact hloc
    · cases h
      exact hloc

/-- **Imports lead to canonical locations only.** -/
theorem Located.isCanonical {root : Path} {loc : Location}
    (h : r.Located (r.rootLocation root) loc) : loc.IsCanonical := by
  induction h with
  | root => exact isCanonical_rootLocation r root
  | step _ _ _ located ih => exact isCanonical_of_locate ih located

end Resolver

/-! ## Places on a disk -/

namespace Disk

/-- The steps from the root to a place, the last one first. -/
def trailTo (place : Place) : List Component := (place.map Component.name).reverse ++ [.root]

theorem trailTo_append_singleton (place : Place) (name : String) :
    trailTo (place ++ [name]) = .name name :: trailTo place := by
  simp [trailTo]

/-- A parent step takes back a name, and stays at the root. -/
theorem trailTo_dropLast (place : Place) : trailTo place.dropLast = follow (trailTo place) .up := by
  rcases List.eq_nil_or_concat place with rfl | ⟨before, name, rfl⟩
  · rfl
  · rw [List.concat_eq_append, List.dropLast_concat, trailTo_append_singleton]
    rfl

/-- One step on a disk is the step that is written. -/
theorem trailTo_step {d : Disk} {place place' : Place} {segment : List Char}
    (h : d.step place segment = .ok place') :
    trailTo place' = (step? segment).toList.foldl follow (trailTo place) := by
  unfold step at h
  dsimp only at h
  unfold step?
  split at h
  · cases h
  · split at h
    · rename_i hidle
      cases h
      rw [if_pos hidle]
      rfl
    · rename_i hidle
      rw [if_neg hidle]
      split at h
      · rename_i hup
        cases h
        rw [if_pos hup]
        exact trailTo_dropLast place
      · rename_i hup
        rw [if_neg hup]
        split at h
        · cases h
        · split at h
          · cases h
          · cases h
            exact trailTo_append_singleton place _

theorem trailTo_walk {d : Disk} {place place' : Place} {steps : List (List Char)}
    (h : d.walk place steps = .ok place') :
    trailTo place' = (steps.filterMap step?).foldl follow (trailTo place) := by
  induction steps generalizing place with
  | nil =>
    cases h
    rfl
  | cons segment rest ih =>
    rw [walk] at h
    cases hs : d.step place segment with
    | error e =>
      rw [hs] at h
      cases h
    | ok next =>
      rw [hs] at h
      rw [ih h, trailTo_step hs, ← List.foldl_append]
      congr 1
      cases hstep : step? segment <;> simp [hstep]

/-- **Where a path leads on a disk is what its steps say,** no matter what else there is. -/
theorem trail_of_locate {d : Disk} {p : Path} {place : Place} (hp : p.isAbsolute = true)
    (h : d.locate p = .ok place) : p.trail = trailTo place := by
  obtain ⟨rest, hrest⟩ : ∃ rest, p.text.toList = '/' :: rest := by
    simp only [isAbsolute, beq_iff_eq] at hp
    exact List.head?_eq_some_iff.mp hp
  have hcomponents : p.components = .root :: (segments rest).filterMap step? := by
    simp only [components, hrest]
  have hroute : d.route p = .ok ([], segments rest) ∨ ∃ e, d.route p = .error e := by
    simp only [route, hrest]
    split
    · exact .inr ⟨_, rfl⟩
    · exact .inl rfl
  unfold locate at h
  rcases hroute with hroute | ⟨e, hroute⟩
  · rw [hroute] at h
    rw [trail, hcomponents, trailTo_walk h]
    rfl
  · rw [hroute] at h
    cases h

end Disk

/-! ## The only relative path to a place -/

namespace Path

/-- The trail of an absolute path: names behind the root. -/
theorem Trail.exists_names_root {before : List Component} (h : Trail before)
    (hr : .root ∈ before) : ∃ names : List String, before = names.map .name ++ [.root] := by
  induction h with
  | root => exact ⟨[], rfl⟩
  | ups n => simp at hr
  | name s _ ih =>
    obtain ⟨names, rfl⟩ := ih (by simpa using hr)
    exact ⟨s :: names, rfl⟩

/-- Parent steps from below the root take names back. -/
theorem foldl_follow_ups_root (names : List String) {k : Nat} (hk : k ≤ names.length) :
    (List.replicate k .up).foldl follow (names.map .name ++ [.root]) =
      (names.map Component.name ++ [Component.root]).drop k := by
  induction k generalizing names with
  | zero => rfl
  | succ k ih =>
    cases names with
    | nil => simp at hk
    | cons s names => exact ih names (by simpa using hk)

/-- The number of parent steps in front of a normal form. -/
def climbs (p : Path) : Nat := p.trail.count .up

/-- The first name of a normal form. -/
def firstName? (p : Path) : Option Component := (p.trail.filter (· != .up)).getLast?

/-- A path that, seen from `root`, goes up no further than there are directories, and does not come
back into the one it has just left. -/
structure Direct (root p : Path) : Prop where
  relative : p.isAbsolute = false
  within : p.climbs < root.trail.length
  away : p.climbs ≠ 0 → p.firstName? ≠ root.trail[p.climbs - 1]?

theorem climbs_of_trail {p : Path} {names : List String} {k : Nat}
    (h : p.trail = names.map .name ++ List.replicate k .up) : p.climbs = k := by
  have hnames : (names.map Component.name).count .up = 0 := List.count_eq_zero.mpr (by simp)
  rw [climbs, h, List.count_append, hnames, List.count_replicate_self, Nat.zero_add]

theorem firstName?_of_trail {p : Path} {names : List String} {k : Nat}
    (h : p.trail = names.map .name ++ List.replicate k .up) :
    p.firstName? = (names.map Component.name).getLast? := by
  have hnames : (names.map Component.name).filter (· != .up) = names.map .name :=
    List.filter_eq_self.mpr (by simp)
  rw [firstName?, h, List.filter_append, hnames, List.filter_replicate_of_neg (by simp),
    List.append_nil]

/-- Names behind what is left of a list are the same where the same is left. -/
theorem eq_of_append_drop {α : Type} {front front' l : List α} {k k' : Nat} (hk : k ≤ k')
    (hk' : k' ≤ l.length) (haway : k' ≠ 0 → front'.getLast? ≠ l[k' - 1]?)
    (h : front ++ l.drop k = front' ++ l.drop k') : k = k' ∧ front = front' := by
  rcases Nat.eq_or_lt_of_le hk with rfl | hlt
  · exact ⟨rfl, List.append_cancel_right h⟩
  · -- otherwise the names of the longer way begin in the directory that it leaves
    have hsplit : (l.drop k).take (k' - k) ++ l.drop k' = l.drop k := by
      have h := List.take_append_drop (k' - k) (l.drop k)
      rwa [List.drop_drop, Nat.add_sub_cancel' hk] at h
    rw [← hsplit, ← List.append_assoc] at h
    refine absurd ?_ (haway (by omega))
    have hindex : k + (k' - k - 1) = k' - 1 := by omega
    have hne : k' - k ≠ 0 := by omega
    rw [← List.append_cancel_right h, List.getLast?_append, List.getLast?_take, if_neg hne,
      List.getElem?_drop, hindex, List.getElem?_eq_getElem (by omega)]
    rfl

/-- The way from a root along a direct path. -/
theorem Direct.trail_join {root p : Path} (hroot : root.isAbsolute = true) (hp : root.Direct p)
    {names : List String} {k : Nat} (ht : p.trail = names.map .name ++ List.replicate k .up) :
    (root.join p).trail = names.map .name ++ root.trail.drop k := by
  obtain ⟨above, habove⟩ := root.isTrail.exists_names_root (root.root_mem_trail_iff.mpr hroot)
  have hk : k ≤ above.length := by
    have hwithin := hp.within
    rw [climbs_of_trail ht, habove] at hwithin
    simpa [Nat.lt_succ_iff] using hwithin
  rw [trail_join_trail hp.relative, ht, foldl_follow_reverse, habove,
    foldl_follow_ups_root above hk]

/-- **There is one direct path to a place.** -/
theorem Direct.eq_of_trail {root p q : Path} (hroot : root.isAbsolute = true)
    (hp : root.Direct p) (hq : root.Direct q) (hp' : p.normalize = p) (hq' : q.normalize = q)
    (h : (root.join p).trail = (root.join q).trail) : p = q := by
  obtain ⟨names, k, ht⟩ := exists_names hp.relative
  obtain ⟨names', k', ht'⟩ := exists_names hq.relative
  rw [hp.trail_join hroot ht, hq.trail_join hroot ht'] at h
  have hwithin := hp.within
  have haway := hp.away
  have hwithin' := hq.within
  have haway' := hq.away
  rw [climbs_of_trail ht] at hwithin haway
  rw [firstName?_of_trail ht] at haway
  rw [climbs_of_trail ht'] at hwithin' haway'
  rw [firstName?_of_trail ht'] at haway'
  have hsame : k = k' ∧ names.map Component.name = names'.map .name := by
    rcases Nat.le_total k k' with hk | hk
    · exact eq_of_append_drop hk hwithin'.le haway' h
    · obtain ⟨hk, hnames⟩ := eq_of_append_drop hk hwithin.le haway h.symm
      exact ⟨hk.symm, hnames.symm⟩
  rw [← hp', ← hq']
  refine normalize_eq_of_trail ?_
  rw [ht, ht', hsame.1, hsame.2]

end Path

/-! ## Files on a disk -/

namespace Disk

theorem locate_of_isFile {d : Disk} {p : Path} (h : d.isFile p = true) :
    ∃ place, d.locate p = .ok place := by
  unfold isFile find? at h
  cases hp : d.locate p with
  | ok place => exact ⟨place, rfl⟩
  | error e => simp [hp] at h

theorem locate_of_readText {d : Disk} {p : Path} {text : String} (h : d.readText p = .ok text) :
    ∃ place, d.locate p = .ok place := by
  unfold readText at h
  cases hp : d.locate p with
  | ok place => exact ⟨place, rfl⟩
  | error e => simp [hp] at h

theorem locate_of_read {d : Disk} {project p : Path} {text : String}
    (h : (d.view project).read p = .ok text) :
    ∃ place, d.locate (viewPath project p) = .ok place := by
  cases hr : d.readText (viewPath project p) with
  | ok text => exact locate_of_readText hr
  | error cause =>
    simp only [view, hr] at h
    cases h

theorem isAbsolute_viewPath {project : Path} (hproject : project.isAbsolute = true) (p : Path) :
    (viewPath project p).isAbsolute = true := by
  unfold viewPath
  split
  · assumption
  · rename_i hp
    rw [isAbsolute_join (by simpa using hp), hproject]

/-- Paths to the same place that are spelled alike are the same. -/
theorem eq_of_locate {d : Disk} {project p q : Path} {place : Place}
    (hproject : project.isAbsolute = true) (hp : p.normalize = p) (hq : q.normalize = q)
    (halike : (p.isAbsolute = true ∧ q.isAbsolute = true) ∨ (project.Direct p ∧ project.Direct q))
    (h : d.locate (viewPath project p) = .ok place)
    (h' : d.locate (viewPath project q) = .ok place) : p = q := by
  have htrail : (viewPath project p).trail = (viewPath project q).trail :=
    (trail_of_locate (isAbsolute_viewPath hproject p) h).trans
      (trail_of_locate (isAbsolute_viewPath hproject q) h').symm
  unfold viewPath at htrail
  rcases halike with ⟨hpa, hqa⟩ | ⟨hpd, hqd⟩
  · rw [if_pos hpa, if_pos hqa] at htrail
    rw [← hp, ← hq]
    exact normalize_eq_of_trail htrail
  · rw [if_neg (by simp [hpd.relative]), if_neg (by simp [hqd.relative])] at htrail
    exact hpd.eq_of_trail hproject hqd hp hq htrail

end Disk

/-- Two files that are both given by absolute paths, or both directly from the project. -/
def Location.SpelledAlike (project : Path) : Location → Location → Prop
  | file p, file q =>
    (p.isAbsolute = true ∧ q.isAbsolute = true) ∨ (project.Direct p ∧ project.Direct q)
  | _, _ => True

namespace Resolver

variable {r : Resolver} {α : Type} {place : Path → α}

/-- If imports lead anywhere, the root was read. -/
theorem load_of_located {start loc : Location} (h : r.Located start loc) (hne : loc ≠ start) :
    ∃ text, r.load start = .ok text := by
  induction h with
  | root => exact absurd rfl hne
  | @step loc _ text _ before read _ _ ih =>
    by_cases hloc : loc = start
    · exact ⟨text, hloc ▸ read⟩
    · exact ih hloc

/-- The modules of the flattened text are the sources that are reached, one for one: locations share
a module exactly if they denote the same source. -/
def TakenOnce (r : Resolver) (place : Path → α) (root : Path) : Prop :=
  let reachable := r.Reachable (r.rootLocation root)
  ∀ out, r.flatten root = .ok out → ∃ index : Location → Nat,
    (∀ loc, reachable loc → out.modules[index loc]? = some loc.id) ∧
    (∀ a b, reachable a → reachable b → (index a = index b ↔ a.SameSource place b)) ∧
    ∀ i < out.modules.length, ∃ loc, reachable loc ∧ index loc = i

/-- Sources are taken once, if ids are equal exactly for the same source. -/
theorem takenOnce {root : Path}
    (hinj : Set.InjOn Location.id {loc | r.Located (r.rootLocation root) loc})
    (hsame : ∀ a b, r.Located (r.rootLocation root) a → r.Located (r.rootLocation root) b →
      a.SameSource place b → a.id = b.id) : r.TakenOnce place root := by
  intro out hout
  obtain ⟨g, hg, rfl⟩ := visit_of_flatten hout
  obtain ⟨_, _, hgrown, rfl, -⟩ := grown_of_visit hg
  have hmem (loc : Location) (hloc : r.Reachable (r.rootLocation root) loc) :
      loc.id ∈ g.flattened.modules := by
    obtain ⟨m, hm, hid⟩ := finished_of_reachable hg hinj hloc
    exact hid ▸ List.mem_map_of_mem hm
  refine ⟨fun loc => g.flattened.modules.idxOf loc.id, ?_, ?_, ?_⟩
  · intro loc hloc
    exact List.getElem?_idxOf (hmem loc hloc)
  · intro a b ha hb
    rw [List.idxOf_inj (hmem a ha)]
    refine ⟨fun hid => ?_, hsame a b ha.located hb.located⟩
    rw [hinj ha.located hb.located hid]
    exact .refl place b
  · intro i hi
    obtain ⟨m, hm, hid⟩ := List.mem_map.mp (List.getElem_mem hi)
    obtain ⟨loc, hloc, hloc'⟩ := reachable_of_finished hg hm
    refine ⟨loc, hloc, ?_⟩
    show g.flattened.modules.idxOf loc.id = i
    rw [hloc', hid]
    exact hgrown.nodup.idxOf_getElem i hi

theorem Located.eq_of_id {root : Path} {a b : Location} (ha : r.Located (r.rootLocation root) a)
    (hb : r.Located (r.rootLocation root) b) (hab : a.ToldApart b) (h : a.id = b.id) : a = b :=
  Location.eq_of_id ha.isCanonical hb.isCanonical hab h

/-- In memory a source is the key of one location only. -/
theorem eq_of_sameSource_key {a b : Location} (ha : a.IsCanonical) (hb : b.IsCanonical)
    (h : a.SameSource MemoryFiles.key b) : a = b := by
  cases a with
  | file p =>
    cases b with
    | file q =>
      have hp : p.normalize = p := ha
      have hq : q.normalize = q := hb
      have hkey : p.normalize.text = q.normalize.text := h
      rw [hp, hq] at hkey
      exact congrArg (Location.file ⟨·⟩) hkey
    | remote => cases h
  | remote ref =>
    cases b with
    | file => cases h
    | remote => exact congrArg Location.remote h

/-- A resolver for the sources of a project on a disk. -/
def onDisk (d : Disk) (project : Path) (remote : Remote) (settings : ResolverSettings) : Resolver :=
  ⟨d.view project, remote, settings⟩

section

variable {d : Disk} {project root : Path} {remote : Remote} {settings : ResolverSettings}

/-- What imports lead to on a disk is there, if the root can be read. -/
theorem Located.exists_place {start : Location} {p : Path} {text : String}
    (h : (onDisk d project remote settings).Located start (.file p))
    (hroot : (onDisk d project remote settings).load start = .ok text) :
    ∃ place, d.locate (Disk.viewPath project p) = .ok place := by
  cases h with
  | root => exact Disk.locate_of_read hroot
  | step _ _ _ located => exact Disk.locate_of_isFile (isFile_of_locate located).1

/-- On a disk a file is the place of one location only, among those that are spelled alike. -/
theorem Located.eq_of_sameSource {a b : Location} (hproject : project.isAbsolute = true)
    (ha : (onDisk d project remote settings).Located
      ((onDisk d project remote settings).rootLocation root) a)
    (hb : (onDisk d project remote settings).Located
      ((onDisk d project remote settings).rootLocation root) b)
    (halike : a.SpelledAlike project b)
    (h : a.SameSource (fun p => d.locate (Disk.viewPath project p)) b) : a = b := by
  by_contra hne
  -- one of the two is not the root, so the root was read and both files are there
  obtain ⟨text, hroot⟩ : ∃ text, (onDisk d project remote settings).load
      ((onDisk d project remote settings).rootLocation root) = .ok text := by
    by_cases hstart : a = (onDisk d project remote settings).rootLocation root
    · exact load_of_located hb fun he => hne (hstart.trans he.symm)
    · exact load_of_located ha hstart
  cases a with
  | file p =>
    cases b with
    | file q =>
      obtain ⟨place, hp⟩ := ha.exists_place hroot
      have hq : d.locate (Disk.viewPath project q) = .ok place := h.symm.trans hp
      exact hne (congrArg Location.file
        (Disk.eq_of_locate hproject ha.isCanonical hb.isCanonical halike hp hq))
    | remote => cases h
  | remote ref =>
    cases b with
    | file => cases h
    | remote => exact hne (congrArg Location.remote h)

end

/-- **One id for one source.** For the locations that imports lead to from any root:

- Sources in memory: locations of the same key have the same id. On a disk, seen from an absolute
  project: locations of the same file have the same id if they are spelled alike.
- Equal ids are of the same source if the two are told apart: no file has a backslash, or reads like
  a remote one.

So where this holds of all of them, the modules of the flattened text are the sources that are
reached, one for one. -/
theorem id_eq_iff (remote : Remote) (settings : ResolverSettings) (root : Path) :
    (∀ files : MemoryFiles,
      let r : Resolver := ⟨files.view, remote, settings⟩
      let located := r.Located (r.rootLocation root)
      (∀ a b, located a → located b →
        (a.SameSource MemoryFiles.key b → a.id = b.id) ∧
        (a.ToldApart b → a.id = b.id → a.SameSource MemoryFiles.key b)) ∧
      ((∀ a b, located a → located b → a.ToldApart b) → r.TakenOnce MemoryFiles.key root)) ∧
    ∀ (d : Disk) (project : Path), project.isAbsolute = true →
      let r := onDisk d project remote settings
      let located := r.Located (r.rootLocation root)
      let place := fun p => d.locate (Disk.viewPath project p)
      (∀ a b, located a → located b →
        (a.SpelledAlike project b → a.SameSource place b → a.id = b.id) ∧
        (a.ToldApart b → a.id = b.id → a.SameSource place b)) ∧
      ((∀ a b, located a → located b → a.ToldApart b ∧ a.SpelledAlike project b) →
        r.TakenOnce place root) := by
  constructor
  · intro files r located
    have hsame : ∀ a b, located a → located b → a.SameSource MemoryFiles.key b → a.id = b.id := by
      intro a b ha hb h
      rw [eq_of_sameSource_key ha.isCanonical hb.isCanonical h]
    refine ⟨fun a b ha hb => ⟨hsame a b ha hb, fun hab h => ?_⟩, fun htold => ?_⟩
    · rw [ha.eq_of_id hb hab h]
      exact .refl _ b
    · exact takenOnce (fun a ha b hb h => ha.eq_of_id hb (htold a b ha hb) h) hsame
  · intro d project hproject r located place
    have hsame : ∀ a b, located a → located b → a.SpelledAlike project b →
        a.SameSource place b → a.id = b.id := by
      intro a b ha hb halike h
      rw [ha.eq_of_sameSource hproject hb halike h]
    refine ⟨fun a b ha hb => ⟨hsame a b ha hb, fun hab h => ?_⟩, fun hall => ?_⟩
    · rw [ha.eq_of_id hb hab h]
      exact .refl _ b
    · exact takenOnce (fun a ha b hb h => ha.eq_of_id hb (hall a b ha hb).1 h)
        fun a b ha hb h => hsame a b ha hb (hall a b ha hb).2 h

/-- Keys that say what they are: they have no backslash, and do not read like a remote file. -/
def HasPlainKeys (files : MemoryFiles) : Prop :=
  ∀ key ∈ files.texts.keys, '\\' ∉ key.toList ∧ ¬ "github.com/".toList <+: key.toList

theorem toldApart_of_hasPlainKeys {files : MemoryFiles} {remote : Remote}
    {settings : ResolverSettings} {start : Path} {a b : Location} (hkeys : HasPlainKeys files)
    (hstart : start.text ∈ files.texts.keys)
    (ha : Located ⟨files.view, remote, settings⟩ (.file start) a)
    (hb : Located ⟨files.view, remote, settings⟩ (.file start) b) : a.ToldApart b := by
  have hplain {p : Path} (h : Located ⟨files.view, remote, settings⟩ (.file start) (.file p)) :
      p.text ∈ files.texts.keys := by
    cases h with
    | root => exact hstart
    | step _ _ _ located =>
      obtain ⟨hf, hp⟩ := isFile_of_locate located
      exact MemoryFiles.mem_keys_of_isFile hp hf
  have hname {p : Path} (h : Located ⟨files.view, remote, settings⟩ (.file start) (.file p)) :
      ¬ "github.com/".toList <+: (Location.file p).id.toList := by
    obtain ⟨hslash, hname⟩ := hkeys _ (hplain h)
    rwa [Location.id_file hslash]
  cases a with
  | file p =>
    cases b with
    | file q => exact ⟨(hkeys _ (hplain ha)).1, (hkeys _ (hplain hb)).1⟩
    | remote => exact hname ha
  | remote =>
    cases b with
    | file q => exact hname hb
    | remote => exact trivial

/-- Two imports of one file in memory, and a remote file. -/
def twiceImported : MemoryFiles :=
  .ofList [("M", "import \"./A\"; import \"./s/../A\"; import \"github.com/o/r/X\";"), ("A", "")]

/-- A project on a disk that imports a file beside it. -/
def besideProject : Disk :=
  { entries := .ofList [("p", .directory), ("p/M", .file "import \"../l/A\";".toUTF8),
      ("l", .directory), ("l/A", .file "".toUTF8)] }

theorem id_eq_iff_twiceImported :
    let remote := Remote.ofDict (.ofList [("github.com/o/r/X", "")])
    let r : Resolver := ⟨twiceImported.view, remote, {}⟩
    let d := besideProject
    let s := onDisk d ⟨"/p"⟩ .disabled {}
    (r.TakenOnce MemoryFiles.key ⟨"M"⟩ ∧
      (r.flatten ⟨"M"⟩).map (·.modules) = .ok ["A", "github.com/o/r/X", "M"]) ∧
    s.Located (s.rootLocation ⟨"/p/M"⟩) (.file ⟨"../l/A"⟩) ∧
    d.locate (Disk.viewPath ⟨"/p"⟩ ⟨"../l/A"⟩) ≠ d.locate (Disk.viewPath ⟨"/p"⟩ ⟨"M"⟩) := by
  intro remote r d s
  refine ⟨⟨?_, by decide +kernel⟩, ?_⟩
  · refine ((id_eq_iff remote {} ⟨"M"⟩).1 twiceImported).2 fun a b ha hb => ?_
    have hkeys : HasPlainKeys twiceImported := by
      unfold HasPlainKeys
      decide +kernel
    have hstart : r.rootLocation ⟨"M"⟩ = .file ⟨"M"⟩ := by decide +kernel
    rw [hstart] at ha hb
    exact toldApart_of_hasPlainKeys hkeys (by decide +kernel) ha hb
  · have hread : s.load (s.rootLocation ⟨"/p/M"⟩) = .ok "import \"../l/A\";" := by decide +kernel
    have hA : s.Located (s.rootLocation ⟨"/p/M"⟩) (.file ⟨"../l/A"⟩) :=
      .step .root hread (show "../l/A" ∈ importPaths _ from by decide +kernel) (by decide +kernel)
    have hM : s.Located (s.rootLocation ⟨"/p/M"⟩) (.file ⟨"M"⟩) := by
      have hstart : s.rootLocation ⟨"/p/M"⟩ = .file ⟨"M"⟩ := by decide +kernel
      rw [hstart]
      exact .root
    have halike : Location.SpelledAlike ⟨"/p"⟩ (.file ⟨"../l/A"⟩) (.file ⟨"M"⟩) :=
      .inr ⟨⟨by decide, by decide +kernel, by decide +kernel⟩,
        ⟨by decide, by decide +kernel, by decide +kernel⟩⟩
    obtain ⟨hsame, -⟩ := ((id_eq_iff .disabled {} ⟨"/p/M"⟩).2 d ⟨"/p"⟩ (by decide)).1 _ _ hA hM
    exact ⟨hA, fun h => absurd (hsame halike h) (by decide +kernel)⟩

/-- **Ids are not sources.** A backslash reads like a slash, so one of two files is left out. A
local file can have the id of a remote one. And a file that imports itself along a path that leaves
the project and comes back is taken twice. -/
theorem ids_not_sources :
    (let text := "import \"../a\\B\";"
    let r : Resolver := ⟨(MemoryFiles.ofList [("a/B", text), ("a\\B", "")]).view, .disabled, {}⟩
    let a := Location.file ⟨"a/B"⟩
    let b := Location.file ⟨"a\\B"⟩
    r.rootLocation ⟨"a/B"⟩ = a ∧ r.Reachable a b ∧ a.id = b.id ∧ ¬ a.SameSource MemoryFiles.key b ∧
      (r.flatten ⟨"a/B"⟩).map (·.modules) = .ok ["a/B"]) ∧
    (let text := "import \"github.com/o/r/X\"; import \"../github.com/o/r/X\";"
    let r : Resolver := ⟨(MemoryFiles.ofList [("s/M", text), ("github.com/o/r/X", "")]).view,
      .ofDict (.ofList [("github.com/o/r/X", "")]), {}⟩
    let reachable := r.Reachable (r.rootLocation ⟨"s/M"⟩)
    let a := Location.file ⟨"github.com/o/r/X"⟩
    let b := Location.remote ⟨"o/r", ⟨"X"⟩⟩
    reachable a ∧ reachable b ∧ a.id = b.id ∧ ¬ a.SameSource MemoryFiles.key b) ∧
    (let text := "import \"../p/M\";"
    let d : Disk := { entries := .ofList [("p", .directory), ("p/M", .file text.toUTF8)] }
    let r := onDisk d ⟨"/p"⟩ .disabled {}
    let a := Location.file ⟨"M"⟩
    let b := Location.file ⟨"../p/M"⟩
    r.rootLocation ⟨"/p/M"⟩ = a ∧ r.Reachable a b ∧
      a.SameSource (fun p => d.locate (Disk.viewPath ⟨"/p"⟩ p)) b ∧ a.id ≠ b.id ∧
      (r.flatten ⟨"/p/M"⟩).map (·.modules) = .ok ["../p/M", "M"]) := by
  refine ⟨?_, ?_, ?_⟩
  · intro text r a b
    have hread : r.load a = .ok text := by decide +kernel
    have hback : "../a\\B" ∈ importPaths text := by decide +kernel
    have hkey : MemoryFiles.key ⟨"a/B"⟩ ≠ MemoryFiles.key ⟨"a\\B"⟩ := by decide +kernel
    exact ⟨by decide +kernel, .step .root hread hback (by decide +kernel) nofun, by decide +kernel,
      hkey, by decide +kernel⟩
  · intro text r reachable a b
    have hread : r.load (r.rootLocation ⟨"s/M"⟩) = .ok text := by decide +kernel
    have hlocal : "../github.com/o/r/X" ∈ importPaths text := by decide +kernel
    have hremote : "github.com/o/r/X" ∈ importPaths text := by decide +kernel
    have hfetch : r.remote.fetch ⟨"o/r", ⟨"X"⟩⟩ = .ok "" := by decide +kernel
    refine ⟨.step .root hread hlocal (by decide +kernel) nofun,
      .step .root hread hremote (by decide +kernel) ?_, by decide +kernel, id⟩
    intro ref href
    exact ⟨"", Location.remote.inj href ▸ hfetch⟩
  · intro text d r a b
    have hread : r.load a = .ok text := by decide +kernel
    have hself : "../p/M" ∈ importPaths text := by decide +kernel
    have hplace : d.locate (Disk.viewPath ⟨"/p"⟩ ⟨"M"⟩) =
        d.locate (Disk.viewPath ⟨"/p"⟩ ⟨"../p/M"⟩) := by decide +kernel
    exact ⟨by decide +kernel, .step .root hread hself (by decide +kernel) nofun, hplace,
      by decide +kernel, by decide +kernel⟩

end Resolver

end ContractBuild
