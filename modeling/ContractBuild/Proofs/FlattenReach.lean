import ContractBuild.Source.Flattened
import ContractBuild.Proofs.ImportOrder
import ContractBuild.Proofs.NormalPath
import Mathlib.Data.Finset.Card
import Mathlib.Data.Set.Function

/-!
# Flattening takes exactly what can be reached

Two halves. A lenient walk over sources in memory always ends without an error (`enter_ok`): each
module that is begun is claimed for the first time, so the modules that can be read and are not
claimed yet become fewer along every chain of imports. And what a walk has gathered is accounted for
(`Accounted`): finished modules come from locations that can be reached, and every id that is
claimed belongs to a module that is under way, to a finished one, or to a remote file that could
not be fetched.

Main statement: `flatten_exact`.
-/

namespace ContractBuild

open Solidity Relation

namespace Resolver

/-! ## Reachability -/

/-- The locations that imports lead to from a root, whether they can be fetched or not. -/
inductive Located (r : Resolver) (root : Location) : Location → Prop where
  | root : Located r root root
  | step {loc target : Location} {text raw : String} (before : Located r root loc)
      (read : r.load loc = .ok text) (imported : raw ∈ importPaths text)
      (located : r.locate loc raw = some target) : Located r root target

/-- The locations that imports lead to from a root, where the target of each import is a local file
or can be fetched. -/
inductive Reachable (r : Resolver) (root : Location) : Location → Prop where
  | root : Reachable r root root
  | step {loc target : Location} {text raw : String} (before : Reachable r root loc)
      (read : r.load loc = .ok text) (imported : raw ∈ importPaths text)
      (located : r.locate loc raw = some target)
      (found : ∀ ref, target = .remote ref → ∃ text, r.remote.fetch ref = .ok text) :
      Reachable r root target

variable {r : Resolver} {root : Location}

theorem Reachable.located {loc : Location} (h : r.Reachable root loc) : r.Located root loc := by
  induction h with
  | root => exact .root
  | step _ read imported located _ ih => exact .step ih read imported located

/-- Locations that imports do not lead out of are all that can be located. -/
theorem Located.mem_of_closed {locs : List Location} (hroot : root ∈ locs)
    (hclosed : ∀ loc ∈ locs, ∀ text ∈ (r.load loc).toOption, ∀ raw ∈ importPaths text,
      ∀ target ∈ r.locate loc raw, target ∈ locs) {loc : Location} (h : r.Located root loc) :
    loc ∈ locs := by
  induction h with
  | root => exact hroot
  | step _ read imported located ih =>
    refine hclosed _ ih _ ?_ _ imported _ located
    rw [read]
    rfl

/-! ## What has been gathered is accounted for -/

/-- A finished module comes from a location that can be reached, and the targets of its imports are
claimed. -/
def Finished (r : Resolver) (root : Location) (g : Graph) (m : SourceModule) : Prop :=
  ∃ loc text, r.Reachable root loc ∧ r.load loc = .ok text ∧ m.id = loc.id ∧
    ∀ raw ∈ importPaths text, ∀ target, r.locate loc raw = some target →
      g.isVisited target.id = true

/-- A remote file that imports lead to and that cannot be fetched. -/
def Lost (r : Resolver) (root : Location) (id : String) : Prop :=
  ∃ ref cause, r.Located root (.remote ref) ∧ r.remote.fetch ref = .error cause ∧ ref.id = id

/-- What a walk has gathered, with the ids of the modules that are under way. -/
structure Accounted (r : Resolver) (root : Location) (underWay : List String) (g : Graph) :
    Prop where
  modules : ∀ m ∈ g.modules, r.Finished root g m
  visited : ∀ id, g.isVisited id = true →
    id ∈ underWay ∨ (∃ m ∈ g.modules, m.id = id) ∨ r.Lost root id

theorem Finished.mono {g g' : Graph} {m : SourceModule}
    (hk : ∀ id, g.isVisited id = true → g'.isVisited id = true) (h : r.Finished root g m) :
    r.Finished root g' m := by
  obtain ⟨loc, text, hloc, read, hid, himp⟩ := h
  exact ⟨loc, text, hloc, read, hid, fun raw hraw target ht => hk _ (himp raw hraw target ht)⟩

/-- A module whose imports were all followed. -/
theorem Finished.moduleAt {g : Graph} {loc : Location} {text : String}
    {imports : List ImportReference} (hloc : r.Reachable root loc) (read : r.load loc = .ok text)
    (hc : ∀ i ∈ (SourceModule.parse loc.id text).imports, ∀ target,
      r.locate loc i.raw = some target → g.isVisited target.id = true) :
    r.Finished root g (moduleAt loc text imports) :=
  ⟨loc, text, hloc, read, rfl, fun raw hraw target ht =>
    hc ⟨raw, .of raw, none⟩ (by simp [SourceModule.parse, hraw]) target ht⟩

namespace Accounted

variable {underWay : List String} {g g' : Graph}

/-- A module is begun. -/
theorem begin (h : r.Accounted root underWay g) (m : SourceModule) :
    r.Accounted root (m.id :: underWay) (g.begin m) where
  modules m' hm' := (h.modules m' hm').mono fun _ hv => by simp [hv]
  visited id hv := by
    rw [Graph.isVisited_begin, Bool.or_eq_true, beq_iff_eq] at hv
    rcases hv with rfl | hv
    · exact .inl (by simp)
    · exact (h.visited id hv).imp_left fun hu => by simp [hu]

/-- A module is finished. -/
theorem push {m : SourceModule} (h : r.Accounted root (m.id :: underWay) g)
    (hm : r.Finished root g m) : r.Accounted root underWay (g.push m) where
  modules m' hm' := by
    rw [Graph.modules_push, List.mem_append, List.mem_singleton] at hm'
    rcases hm' with hm' | rfl
    · exact h.modules m' hm'
    · exact hm
  visited id hv := by
    rcases h.visited id hv with hu | ⟨m', hm', hid⟩ | hl
    · rcases List.mem_cons.mp hu with rfl | hu
      · exact .inr (.inl ⟨m, by simp, rfl⟩)
      · exact .inl hu
    · exact .inr (.inl ⟨m', by simp [hm'], hid⟩)
    · exact .inr (.inr hl)

/-- A remote file cannot be fetched. -/
theorem lose {ref : RemoteRef} {cause : Failure} (h : r.Accounted root underWay g)
    (hloc : r.Located root (.remote ref)) (hf : r.remote.fetch ref = .error cause) :
    r.Accounted root underWay (g.claim ref.id) where
  modules m hm := (h.modules m hm).mono fun _ hv => by simp [hv]
  visited id hv := by
    rw [Graph.isVisited_claim, Bool.or_eq_true, beq_iff_eq] at hv
    rcases hv with rfl | hv
    · exact .inr (.inr ⟨ref, cause, hloc, hf, rfl⟩)
    · exact h.visited id hv

theorem report (h : r.Accounted root underWay g) (d : ResolutionDiagnostic) :
    r.Accounted root underWay (g.report d) := ⟨h.modules, h.visited⟩

end Accounted

/-- **A walk without an error keeps what is gathered accounted for,** and claims the target of every
import. -/
theorem Walked.accounted {loc : Location} {is is' : List ImportReference} {g g' : Graph}
    (h : r.Walked loc is g is' g') {text : String} (hloc : r.Reachable root loc)
    (hread : r.load loc = .ok text) (hi : ∀ i ∈ is, i.raw ∈ importPaths text)
    {underWay : List String} (hg : r.Accounted root underWay g) :
    r.Accounted root underWay g' ∧
      ∀ i ∈ is, ∀ target, r.locate loc i.raw = some target → g'.isVisited target.id = true := by
  induction h generalizing text underWay with
  | done => exact ⟨hg, by simp⟩
  | missing located left later ih =>
    obtain ⟨hraw, hrest⟩ := List.forall_mem_cons.mp hi
    obtain ⟨-, d, rfl⟩ := unresolved_ok left
    obtain ⟨hg', hc⟩ := ih hloc hread hrest (hg.report d)
    exact ⟨hg', List.forall_mem_cons.mpr ⟨by simp [located], hc⟩⟩
  | seen located visited later ih =>
    obtain ⟨hraw, hrest⟩ := List.forall_mem_cons.mp hi
    obtain ⟨hg', hc⟩ := ih hloc hread hrest hg
    refine ⟨hg', List.forall_mem_cons.mpr ⟨fun target ht => ?_, hc⟩⟩
    cases located.symm.trans ht
    exact later.isVisited visited
  | @entered _ target' text' _ inner _ _ _ _ _ located fresh read below later ihb ih =>
    obtain ⟨hraw, hrest⟩ := List.forall_mem_cons.mp hi
    have htarget : r.Reachable root target' :=
      .step hloc hread hraw located fun ref he => ⟨text', by rw [he] at read; exact read⟩
    obtain ⟨hg₁, hc₁⟩ := ihb htarget read (by simp [SourceModule.parse]) (hg.begin _)
    obtain ⟨hg', hc⟩ := ih hloc hread hrest
      (hg₁.push (m := moduleAt target' text' inner) (.moduleAt htarget read hc₁))
    refine ⟨hg', List.forall_mem_cons.mpr ⟨fun target ht => ?_, hc⟩⟩
    cases located.symm.trans ht
    exact later.isVisited (below.isVisited (by simp [SourceModule.parse]))
  | failed located fresh lost left later ih =>
    obtain ⟨hraw, hrest⟩ := List.forall_mem_cons.mp hi
    obtain ⟨-, d, rfl⟩ := unresolved_ok left
    have hlost := hg.lose (hloc.located.step hread hraw located) lost
    obtain ⟨hg', hc⟩ := ih hloc hread hrest (hlost.report d)
    refine ⟨hg', List.forall_mem_cons.mpr ⟨fun target ht => ?_, hc⟩⟩
    cases located.symm.trans ht
    exact later.isVisited (by simp [Location.id])

/-- What is gathered from a root is accounted for, with nothing under way. -/
theorem accounted_of_visit {g : Graph} (h : r.visit root .empty = ⟨g, none⟩) :
    r.Accounted root [] g := by
  obtain ⟨text, imports, g₁, read, hw, rfl⟩ := walked_of_visit rfl h
  have hstart : r.Accounted root [] .empty := ⟨by simp, by simp⟩
  obtain ⟨hg, hc⟩ := hw.accounted .root read (by simp [SourceModule.parse]) (hstart.begin _)
  exact hg.push (m := moduleAt root text imports) (.moduleAt .root read hc)

/-- Every finished module can be reached. -/
theorem reachable_of_finished {g : Graph} (h : r.visit root .empty = ⟨g, none⟩) {m : SourceModule}
    (hm : m ∈ g.modules) : ∃ loc, r.Reachable root loc ∧ loc.id = m.id := by
  obtain ⟨loc, text, hloc, -, hid, -⟩ := (accounted_of_visit h).modules m hm
  exact ⟨loc, hloc, hid.symm⟩

/-- **What can be reached is finished,** if no two locations that imports lead to share an id. A
remote file that cannot be fetched counts as one of them: its id is claimed like that of any
other. -/
theorem finished_of_reachable {g : Graph} (h : r.visit root .empty = ⟨g, none⟩)
    (hinj : Set.InjOn Location.id {loc | r.Located root loc}) {loc : Location}
    (hloc : r.Reachable root loc) : ∃ m ∈ g.modules, m.id = loc.id := by
  have hacc := accounted_of_visit h
  induction hloc with
  | root =>
    obtain ⟨-, -, -, -, hlast⟩ := grown_of_visit h
    obtain ⟨m, hm, hid⟩ := Option.map_eq_some_iff.mp hlast
    exact ⟨m, List.mem_of_getLast? hm, hid⟩
  | @step loc target text raw before read imported located found ih =>
    obtain ⟨m, hm, hid⟩ := ih
    obtain ⟨loc', text', hloc', read', hid', himp⟩ := hacc.modules m hm
    obtain rfl : loc' = loc := hinj hloc'.located before.located (hid'.symm.trans hid)
    obtain rfl : text' = text := by simpa [read] using read'.symm
    rcases hacc.visited _ (himp raw imported target located) with hu | hm | ⟨ref, cause, hl, hf, he⟩
    · simp at hu
    · exact hm
    · -- The id was claimed by a failed fetch, of this very target then.
      have : Location.remote ref = target :=
        hinj hl (before.located.step read imported located) he
      obtain ⟨text, ht⟩ := found ref this.symm
      rw [hf] at ht
      cases ht

/-! ## Lenient walks end -/

/-- A lenient resolver that can read every file it finds, and of whose locations only those with
some ids can be read at all. -/
structure Bounded (r : Resolver) (ids : Finset String) : Prop where
  lenient : r.settings.strict = false
  readable : ∀ loc raw p, r.locate loc raw = some (.file p) → ∃ text, r.view.read p = .ok text
  listed : ∀ loc raw target text, r.locate loc raw = some target → r.load target = .ok text →
    target.id ∈ ids

/-- The ids that are not claimed yet. -/
def unclaimed (ids : Finset String) (g : Graph) : Finset String :=
  ids.filter fun id => g.isVisited id = false

theorem unclaimed_subset {ids : Finset String} {g g' : Graph}
    (h : ∀ id, g.isVisited id = true → g'.isVisited id = true) :
    unclaimed ids g' ⊆ unclaimed ids g := by
  intro id hid
  obtain ⟨hm, hv⟩ := Finset.mem_filter.mp hid
  refine Finset.mem_filter.mpr ⟨hm, ?_⟩
  cases hg : g.isVisited id with
  | false => rfl
  | true => rw [← hv, h id hg]

/-- Claiming an id leaves fewer unclaimed. -/
theorem card_unclaimed_claim {ids : Finset String} {g : Graph} {id : String} (hm : id ∈ ids)
    (hv : g.isVisited id = false) :
    (unclaimed ids (g.claim id)).card < (unclaimed ids g).card := by
  apply Finset.card_lt_card
  refine ⟨unclaimed_subset fun _ h => by simp [h], fun hs => ?_⟩
  have := hs (Finset.mem_filter.mpr ⟨hm, hv⟩)
  simp [unclaimed] at this

theorem unresolved_lenient (hs : r.settings.strict = false) (g : Graph) (importer target : String)
    (cause : Option Failure) : ∃ d, r.unresolved g importer target cause = ⟨g.report d, none⟩ := by
  cases cause <;> simp only [unresolved, hs, Bool.false_eq_true, ↓reduceIte] <;> exact ⟨_, rfl⟩

variable {ids : Finset String}

/-- One import is followed without an error, if walks from below it end so. -/
theorem follow_ok (hb : r.Bounded ids) {n : Nat}
    (he : ∀ loc text g, (unclaimed ids g).card < n → (r.enter n loc text g).error = none)
    (loc : Location) (i : ImportReference) {g : Graph} (hn : (unclaimed ids g).card ≤ n) :
    ∃ i' g', r.follow (r.enter n) loc i g = (i', ⟨g', none⟩) ∧ (unclaimed ids g').card ≤ n := by
  -- A target that can be read and is not claimed is entered.
  have hentered : ∀ {target text}, r.locate loc i.raw = some target → r.load target = .ok text →
      g.isVisited target.id = false → ∃ g', r.enter n target text (g.claim target.id) = ⟨g', none⟩ ∧
        (unclaimed ids g').card ≤ n := by
    intro target text hl ht hv
    have hlt := card_unclaimed_claim (hb.listed _ _ _ _ hl ht) hv
    obtain ⟨g', hg'⟩ : ∃ g', r.enter n target text (g.claim target.id) = ⟨g', none⟩ :=
      ⟨_, Progress.eq_of_error (he target text (g.claim target.id) (by omega))⟩
    obtain ⟨imports, g₁, hw, rfl⟩ := walked_of_enter n _ _ _ _ hg'
    refine ⟨_, hg', ?_⟩
    refine (Finset.card_le_card (unclaimed_subset fun id hid => ?_)).trans hn
    exact hw.isVisited (by simp [hid])
  unfold follow
  split
  · obtain ⟨d, hd⟩ := unresolved_lenient hb.lenient g loc.id i.raw none
    rw [hd]
    exact ⟨_, _, rfl, hn⟩
  · rename_i p hl
    obtain ⟨text, ht⟩ := hb.readable _ _ _ hl
    simp only [visitWith]
    split
    · exact ⟨_, _, rfl, hn⟩
    · rename_i hv
      obtain ⟨g', hg', hn'⟩ := hentered hl ht (by simpa using hv)
      have ht' : r.load (.file p) = .ok text := ht
      simp only [ht', hg']
      exact ⟨_, _, rfl, hn'⟩
  · rename_i ref hl
    simp only
    split
    · exact ⟨_, _, rfl, hn⟩
    · rename_i hv
      split
      · rename_i text ht
        obtain ⟨g', hg', hn'⟩ := hentered hl ht (by simpa using hv)
        rw [hg']
        exact ⟨_, _, rfl, hn'⟩
      · rename_i cause hf
        obtain ⟨d, hd⟩ := unresolved_lenient hb.lenient (g.claim (Location.remote ref).id) loc.id
          i.raw (some cause)
        rw [hd]
        refine ⟨_, _, rfl, ?_⟩
        exact (Finset.card_le_card (unclaimed_subset fun id hid => by simp [hid])).trans hn

theorem followAll_ok (hb : r.Bounded ids) {n : Nat}
    (he : ∀ loc text g, (unclaimed ids g).card < n → (r.enter n loc text g).error = none)
    (loc : Location) (is : List ImportReference) {g : Graph} (hn : (unclaimed ids g).card ≤ n) :
    (followAll (r.follow (r.enter n) loc) is g).2.error = none := by
  induction is generalizing g with
  | nil => rfl
  | cons i rest ih =>
    obtain ⟨i', g', hstep, hn'⟩ := follow_ok hb he loc i hn
    rw [followAll, hstep]
    exact ih hn'

/-- **A lenient walk ends without an error,** if more chains are allowed than there are modules that
can be read and are not claimed. -/
theorem enter_ok (hb : r.Bounded ids) (n : Nat) (loc : Location) (text : String) (g : Graph)
    (hn : (unclaimed ids g).card < n) : (r.enter n loc text g).error = none := by
  induction n generalizing loc text g with
  | zero => omega
  | succ n ih =>
    have h := followAll_ok hb ih loc (SourceModule.parse loc.id text).imports
      (g := g.record (SourceModule.parse loc.id text).pragma (SourceModule.parse loc.id text).licenses)
      (Nat.le_of_lt_succ hn)
    rw [enter]
    split
    · rename_i heq
      rw [heq] at h
      exact h
    · rfl

theorem visit_of_load_error {loc : Location} {cause : Failure} (h : r.load loc = .error cause) :
    r.visit loc .empty = ⟨Graph.empty.claim loc.id, some (.read loc.id cause)⟩ := by
  simp only [visit, visitWith, Graph.isVisited_empty, Bool.false_eq_true, ↓reduceIte, h]

theorem flatten_of_visit_error {root : Path} {g : Graph} {e : ResolutionError}
    (h : r.visit (r.rootLocation root) .empty = ⟨g, some e⟩) : r.flatten root = .error e := by
  unfold flatten
  rw [h]

theorem flatten_of_visit {root : Path} {g : Graph}
    (h : r.visit (r.rootLocation root) .empty = ⟨g, none⟩) : r.flatten root = .ok g.flattened := by
  unfold flatten
  rw [h]

theorem visit_ok (hb : r.Bounded ids) (hn : ids.card < r.bound) {loc : Location} {text : String}
    (ht : r.load loc = .ok text) : ∃ g, r.visit loc .empty = ⟨g, none⟩ := by
  refine ⟨_, Progress.eq_of_error ?_⟩
  simp only [visit, visitWith, Graph.isVisited_empty, Bool.false_eq_true, ↓reduceIte, ht]
  exact enter_ok hb _ _ _ _ ((Finset.card_le_card (Finset.filter_subset _ _)).trans_lt hn)

/-! ## Sources in memory -/

/-- A resolver for sources in memory, with remote files in memory too or out of reach. -/
def inMemory (files : MemoryFiles) (remote : Option (Dict String)) (settings : ResolverSettings) :
    Resolver :=
  ⟨files.view, remote.elim .disabled .ofDict, settings⟩

theorem firstFile?_eq_some {candidates : List Path} {target : Location}
    (h : r.firstFile? candidates = some target) :
    ∃ p ∈ candidates, target = .file p ∧ r.view.isFile p = true := by
  obtain ⟨p, hp, rfl⟩ := Option.map_eq_some_iff.mp h
  exact ⟨p, List.mem_of_find?_eq_some hp, rfl, List.find?_some hp⟩

theorem normalize_of_mem_dependencyCandidates {start p : Path} {raw : String}
    (h : p ∈ r.dependencyCandidates start raw) : p.normalize = p := by
  obtain ⟨dir, -, rfl⟩ := List.mem_map.mp h
  exact Path.normalize_normalize _

theorem normalize_of_mem_candidates {dir p : Path} {raw : String} {kind : ImportKind}
    (h : p ∈ r.candidates dir raw kind) : p.normalize = p := by
  rcases List.mem_cons.mp h with rfl | h
  · exact Path.normalize_normalize _
  · split at h
    · exact normalize_of_mem_dependencyCandidates h
    · simp at h

/-- An import is located only at files that are there, under their normal form. -/
theorem isFile_of_locate {loc : Location} {raw : String} {p : Path}
    (h : r.locate loc raw = some (.file p)) : r.view.isFile p = true ∧ p.normalize = p := by
  have hfile : ∀ {dir kind}, r.locateFile? dir raw kind = some (.file p) →
      r.view.isFile p = true ∧ p.normalize = p := by
    intro dir kind h
    obtain ⟨q, hq, he, hf⟩ := firstFile?_eq_some h
    cases he
    exact ⟨hf, normalize_of_mem_candidates hq⟩
  have hdep : ∀ {start}, r.locateDependency? start raw = some (.file p) →
      r.view.isFile p = true ∧ p.normalize = p := by
    intro start h
    obtain ⟨q, hq, he, hf⟩ := firstFile?_eq_some h
    cases he
    exact ⟨hf, normalize_of_mem_dependencyCandidates hq⟩
  unfold locate at h
  split at h
  · rcases Option.or_eq_some_iff.mp h with h | ⟨-, h⟩
    · exact hfile h
    · simp at h
  · simp at h
  · exact hfile h
  · rcases Option.or_eq_some_iff.mp h with h | ⟨-, h⟩
    · exact hdep h
    · simp at h
  · simp at h

end Resolver

/-- What is made of each entry, one thing for a character or less, is no more than the entries
weigh. -/
theorem MemoryFiles.length_flatMap_le_weight {β : Type} (d : Dict String)
    {f : String × String → List β} (h : ∀ e, (f e).length ≤ e.1.length + e.2.length + 1) :
    (d.entries.flatMap f).length ≤ MemoryFiles.weight d := by
  have hfold : ∀ (entries : List (String × String)) (n : Nat),
      n + (entries.flatMap f).length ≤
        entries.foldl (fun n e => n + e.1.length + e.2.length + 1) n := by
    intro entries
    induction entries with
    | nil => intro n; exact Nat.le_refl n
    | cons e rest ih =>
      intro n
      have hone := h e
      have hrest := ih (n + e.1.length + e.2.length + 1)
      simp only [List.flatMap_cons, List.length_append, List.foldl_cons]
      omega
  simpa [MemoryFiles.weight] using hfold d.entries 0

theorem MemoryFiles.length_le_weight (d : Dict String) :
    d.entries.length ≤ MemoryFiles.weight d := by
  have h := MemoryFiles.length_flatMap_le_weight d (f := fun e => [e]) (by simp)
  rwa [List.flatMap_singleton'] at h

/-- A file that is there can be read. -/
theorem MemoryFiles.read_of_isFile {files : MemoryFiles} {p : Path} (h : files.isFile p = true) :
    ∃ text, files.read p = .ok text := by
  unfold MemoryFiles.isFile at h
  rw [Dict.contains_eq_isSome_get?] at h
  obtain ⟨text, ht⟩ := Option.isSome_iff_exists.mp h
  exact ⟨text, by rw [MemoryFiles.read, ht]⟩

/-- What is fetched is among the files. -/
theorem Remote.mem_keys_of_fetch {files : Dict String} {ref : RemoteRef} {text : String}
    (h : (Remote.ofDict files).fetch ref = .ok text) : ref.id ∈ files.keys := by
  apply Dict.mem_keys_of_contains
  rw [Dict.contains_eq_isSome_get?]
  cases hget : files.get? ref.id with
  | some _ => rfl
  | none => simp [Remote.ofDict, hget] at h

namespace Resolver

/-- The ids of files in memory. -/
def fileIds (files : MemoryFiles) : Finset String :=
  (files.texts.keys.map fun key => (Location.file ⟨key⟩).id).toFinset

theorem card_fileIds_le (files : MemoryFiles) : (fileIds files).card ≤ files.view.size := by
  have hcard := List.toFinset_card_le (files.texts.keys.map fun key => (Location.file ⟨key⟩).id)
  rw [List.length_map, Dict.keys, List.length_map] at hcard
  exact hcard.trans (MemoryFiles.length_le_weight files.texts)

/-- Lenient resolvers for files in memory are bounded, if only remote files with some ids can be
fetched. -/
theorem bounded_memory (files : MemoryFiles) {remote : Remote} {ids : Finset String}
    (hids : ∀ ref text, remote.fetch ref = .ok text → ref.id ∈ ids) {settings : ResolverSettings}
    (hs : settings.strict = false) :
    Bounded ⟨files.view, remote, settings⟩ (fileIds files ∪ ids) where
  lenient := hs
  readable loc raw p h := MemoryFiles.read_of_isFile (isFile_of_locate h).1
  listed loc raw target text hl ht := by
    rw [Finset.mem_union]
    cases target with
    | file p =>
      obtain ⟨hf, hp⟩ := isFile_of_locate hl
      have hkey : p.text ∈ files.texts.keys := by
        apply Dict.mem_keys_of_contains
        rw [← hp]
        exact hf
      exact .inl (List.mem_toFinset.mpr (List.mem_map.mpr ⟨p.text, hkey, rfl⟩))
    | remote ref => exact .inr (hids ref text ht)

/-- The ids under which sources in memory can be read. -/
def memoryIds (files : MemoryFiles) (remote : Option (Dict String)) : Finset String :=
  ((files.texts.keys.map fun key => (Location.file ⟨key⟩).id) ++
    (remote.elim [] Dict.keys)).toFinset

theorem memoryIds_eq (files : MemoryFiles) (remote : Option (Dict String)) :
    memoryIds files remote = fileIds files ∪ (remote.elim [] Dict.keys).toFinset :=
  List.toFinset_append

theorem card_memoryIds (files : MemoryFiles) (remote : Option (Dict String))
    (settings : ResolverSettings) :
    (memoryIds files remote).card < (inMemory files remote settings).bound := by
  have hfiles := card_fileIds_le files
  have hunion := Finset.card_union_le (fileIds files) (remote.elim [] Dict.keys).toFinset
  have hremote : (remote.elim [] Dict.keys).toFinset.card ≤
      (inMemory files remote settings).remote.size := by
    refine (List.toFinset_card_le _).trans ?_
    cases remote with
    | none => exact Nat.zero_le _
    | some d => exact (List.length_map _).trans_le (MemoryFiles.length_le_weight d)
  rw [memoryIds_eq, bound]
  exact Nat.lt_succ_of_le (hunion.trans (Nat.add_le_add hfiles hremote))

/-- Lenient resolvers for sources in memory are bounded. -/
theorem bounded_inMemory (files : MemoryFiles) (remote : Option (Dict String))
    (settings : ResolverSettings) (hs : settings.strict = false) :
    (inMemory files remote settings).Bounded (memoryIds files remote) := by
  rw [memoryIds_eq]
  refine bounded_memory files (fun ref text ht => List.mem_toFinset.mpr ?_) hs
  cases remote with
  | none => cases ht
  | some d => exact Remote.mem_keys_of_fetch ht

/-- **Flattening ends and takes exactly what can be reached,** each module once. For sources in
memory and a lenient resolver: a root that cannot be read is an error of reading, and any other root
has a result without repeated modules, all of which can be reached. Nothing that can be reached is
left out, if no two locations that imports lead to share an id. -/
theorem flatten_exact (files : MemoryFiles) (remote : Option (Dict String)) (dirs : List String)
    (root : Path) :
    let r := inMemory files remote { dependencyDirs := dirs, strict := false }
    let start := r.rootLocation root
    (∀ cause, r.load start = .error cause → r.flatten root = .error (.read start.id cause)) ∧
    ∀ text, r.load start = .ok text → ∃ out, r.flatten root = .ok out ∧ out.modules.Nodup ∧
      {id | id ∈ out.modules} ⊆ Location.id '' {loc | r.Reachable start loc} ∧
      (Set.InjOn Location.id {loc | r.Located start loc} →
        {id | id ∈ out.modules} = Location.id '' {loc | r.Reachable start loc}) := by
  intro r start
  refine ⟨fun cause hc => flatten_of_visit_error (visit_of_load_error hc), fun text ht => ?_⟩
  obtain ⟨g, hg⟩ :=
    visit_ok (bounded_inMemory files remote _ rfl) (card_memoryIds files remote _) ht
  obtain ⟨i, new, hgrown, rfl, -⟩ := grown_of_visit hg
  have hsound : {id | id ∈ g.flattened.modules} ⊆ Location.id '' {loc | r.Reachable start loc} := by
    intro id hid
    obtain ⟨m, hm, rfl⟩ := List.mem_map.mp hid
    exact reachable_of_finished hg hm
  refine ⟨g.flattened, flatten_of_visit hg, hgrown.nodup, hsound, fun hinj => ?_⟩
  refine hsound.antisymm ?_
  rintro id ⟨loc, hloc, rfl⟩
  obtain ⟨m, hm, hid⟩ := finished_of_reachable hg hinj hloc
  exact List.mem_map.mpr ⟨m, hm, hid⟩

/-- Two files that import each other, and each a remote file. -/
def cycleFiles : MemoryFiles := .ofList
  [("Main.sol", "import \"./A.sol\"; import \"github.com/o/r/X.sol\";"),
   ("A.sol", "import \"./Main.sol\"; import \"github.com/o/r/Y.sol\";"), ("B.sol", "")]

/-- One of the two remote files. -/
def cycleRemote : Dict String := .ofList [("github.com/o/r/X.sol", "contract X {}")]

/-- Four locations are led to, each with an id of its own, and the three that can be read are
taken. -/
theorem flatten_exact_cycle :
    let r := inMemory cycleFiles (some cycleRemote) { dependencyDirs := [], strict := false }
    let start := r.rootLocation ⟨"Main.sol"⟩
    Set.InjOn Location.id {loc | r.Located start loc} ∧
    ∃ out, r.flatten ⟨"Main.sol"⟩ = .ok out ∧
      out.modules = ["A.sol", "github.com/o/r/X.sol", "Main.sol"] ∧
      Location.id '' {loc | r.Reachable start loc} =
        {"A.sol", "github.com/o/r/X.sol", "Main.sol"} := by
  intro r start
  let locs : List Location :=
    [.file ⟨"Main.sol"⟩, .file ⟨"A.sol"⟩, .remote ⟨"o/r", ⟨"X.sol"⟩⟩, .remote ⟨"o/r", ⟨"Y.sol"⟩⟩]
  have hclosed : start ∈ locs ∧ ∀ loc ∈ locs, ∀ text ∈ (r.load loc).toOption,
      ∀ raw ∈ importPaths text, ∀ target ∈ r.locate loc raw, target ∈ locs := by decide +kernel
  have hids : (locs.map Location.id).Nodup := by decide +kernel
  have hinj : Set.InjOn Location.id {loc | r.Located start loc} := by
    intro a ha b hb
    exact List.inj_on_of_nodup_map hids (ha.mem_of_closed hclosed.1 hclosed.2)
      (hb.mem_of_closed hclosed.1 hclosed.2)
  have hload : r.load start = .ok "import \"./A.sol\"; import \"github.com/o/r/X.sol\";" := by
    decide +kernel
  have hmodules : (r.flatten ⟨"Main.sol"⟩).map (·.modules) =
      .ok ["A.sol", "github.com/o/r/X.sol", "Main.sol"] := by decide +kernel
  obtain ⟨-, hexact⟩ := flatten_exact cycleFiles (some cycleRemote) [] ⟨"Main.sol"⟩
  obtain ⟨out, hout, -, -, himage⟩ := hexact _ hload
  rw [hout] at hmodules
  have hlist : out.modules = ["A.sol", "github.com/o/r/X.sol", "Main.sol"] :=
    Except.ok.inj hmodules
  refine ⟨hinj, out, hout, hlist, ?_⟩
  rw [← himage hinj, hlist]
  ext id
  simp

/-- A file that shares its id with a remote file that cannot be fetched is left out. -/
example :
    let files : MemoryFiles := .ofList
      [("s/M", "import \"github.com/o/r/X\"; import \"../github.com/o/r/X\";"),
       ("github.com/o/r/X", "")]
    ((inMemory files none { dependencyDirs := [] }).flatten ⟨"s/M"⟩).map (·.modules) =
      .ok ["s/M"] := by
  decide +kernel

end Resolver

end ContractBuild
