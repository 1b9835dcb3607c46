import ContractBuild.Proofs.Walk
import Mathlib.Logic.Relation

/-!
# Dependencies come first

The modules of a graph stand in the order in which a walk finished them, and their resolved imports
are the edges between them. A walk adds a stretch of modules (`Grown`): none of them was claimed
before, all of them can be reached from the imports that were followed, and each imports only what
is claimed by then. Stretches that are put one behind the other (`Grown.append`) and a module that
is put behind its dependencies (`Grown.push`) keep this.

Main statement: `dependencies_first`, a module comes before its dependency only if the dependency
leads back to it, and the root comes last.
-/

namespace ContractBuild

open Solidity Relation

/-! ## Edges and paths -/

/-- The module has an import that was resolved to an id. -/
def Solidity.SourceModule.ImportsId (m : SourceModule) (id : String) : Prop :=
  ∃ i ∈ m.imports, i.resolved = some id

/-- One of the modules has the first id and an import that was resolved to the second. -/
def ImportEdge (ms : List SourceModule) (a b : String) : Prop :=
  ∃ m ∈ ms, m.id = a ∧ m.ImportsId b

theorem importEdge_iff {ms : List SourceModule} {a b : String} :
    ImportEdge ms a b ↔
      ∃ e ∈ ms.map (fun m => (m.id, m.imports.filterMap (·.resolved))), e.1 = a ∧ b ∈ e.2 := by
  constructor
  · rintro ⟨m, hm, ha, hb⟩
    exact ⟨_, List.mem_map_of_mem hm, ha, List.mem_filterMap.mpr hb⟩
  · rintro ⟨e, he, ha, hb⟩
    obtain ⟨m, hm, rfl⟩ := List.mem_map.mp he
    exact ⟨m, hm, ha, List.mem_filterMap.mp hb⟩

/-- The second id is reached from the first along resolved imports. -/
def ImportPath (ms : List SourceModule) : String → String → Prop := ReflTransGen (ImportEdge ms)

theorem ImportPath.mono {ms ms' : List SourceModule} (hs : ms ⊆ ms') {a b : String}
    (h : ImportPath ms a b) : ImportPath ms' a b :=
  ReflTransGen.mono (p := ImportEdge ms')
    (fun _ _ ⟨m, hm, ha, hb⟩ => ⟨m, hs hm, ha, hb⟩) a b h

/-- A module leads wherever one of its resolved imports leads. -/
theorem ImportPath.of_import {ms : List SourceModule} {m : SourceModule} (hm : m ∈ ms)
    {a b : String} (ha : m.ImportsId a) (h : ImportPath ms a b) : ImportPath ms m.id b :=
  ReflTransGen.head ⟨m, hm, rfl, ha⟩ h

/-! ## What a walk adds -/

/-- What a walk adds to a graph while it follows imports. -/
structure Grown (g g' : Graph) (imports : List ImportReference) (new : List SourceModule) :
    Prop where
  modules : g'.modules = g.modules ++ new
  kept : ∀ id, g.isVisited id = true → g'.isVisited id = true
  fresh : ∀ m ∈ new, g.isVisited m.id = false
  claimed : ∀ m ∈ new, g'.isVisited m.id = true
  nodup : (new.map (·.id)).Nodup
  /-- Nothing that is claimed later can be imported by then. -/
  targets : ∀ m ∈ new, ∀ id, m.ImportsId id → g'.isVisited id = true
  resolved : ∀ i ∈ imports, ∀ id, i.resolved = some id → g'.isVisited id = true
  reached : ∀ m ∈ new, ∃ i ∈ imports, ∃ id, i.resolved = some id ∧ ImportPath new id m.id
  ordered : new.Pairwise fun a b => a.ImportsId b.id → ImportPath new b.id a.id

namespace Grown

variable {g g₁ g' : Graph} {is is₁ is₂ : List ImportReference} {new new₁ new₂ : List SourceModule}

/-- A step that adds no module, and claims what its import was resolved to. -/
theorem of_modules_eq {i : ImportReference} (hm : g'.modules = g.modules)
    (hk : ∀ id, g.isVisited id = true → g'.isVisited id = true)
    (hr : ∀ id, i.resolved = some id → g'.isVisited id = true) : Grown g g' [i] [] where
  modules := by simp [hm]
  kept := hk
  fresh := by simp
  claimed := by simp
  nodup := by simp
  targets := by simp
  resolved := by simpa using hr
  reached := by simp
  ordered := .nil

/-- Two stretches, one behind the other. -/
theorem append (h₁ : Grown g g₁ is₁ new₁) (h₂ : Grown g₁ g' is₂ new₂) :
    Grown g g' (is₁ ++ is₂) (new₁ ++ new₂) where
  modules := by rw [h₂.modules, h₁.modules, List.append_assoc]
  kept id hv := h₂.kept id (h₁.kept id hv)
  fresh m hm := by
    rcases List.mem_append.mp hm with hm | hm
    · exact h₁.fresh m hm
    · cases hv : g.isVisited m.id with
      | false => rfl
      | true => rw [← h₂.fresh m hm, h₁.kept m.id hv]
  claimed m hm := by
    rcases List.mem_append.mp hm with hm | hm
    · exact h₂.kept _ (h₁.claimed m hm)
    · exact h₂.claimed m hm
  nodup := by
    rw [List.map_append, List.nodup_append]
    refine ⟨h₁.nodup, h₂.nodup, ?_⟩
    intro a ha b hb hab
    obtain ⟨m, hm, rfl⟩ := List.mem_map.mp ha
    obtain ⟨m', hm', rfl⟩ := List.mem_map.mp hb
    have hc := h₁.claimed m hm
    rw [hab, h₂.fresh m' hm'] at hc
    cases hc
  targets m hm id hid := by
    rcases List.mem_append.mp hm with hm | hm
    · exact h₂.kept _ (h₁.targets m hm id hid)
    · exact h₂.targets m hm id hid
  resolved i hi id hid := by
    rcases List.mem_append.mp hi with hi | hi
    · exact h₂.kept _ (h₁.resolved i hi id hid)
    · exact h₂.resolved i hi id hid
  reached m hm := by
    rcases List.mem_append.mp hm with hm | hm
    · obtain ⟨i, hi, id, hid, hp⟩ := h₁.reached m hm
      exact ⟨i, List.mem_append_left _ hi, id, hid, hp.mono (List.subset_append_left _ _)⟩
    · obtain ⟨i, hi, id, hid, hp⟩ := h₂.reached m hm
      exact ⟨i, List.mem_append_right _ hi, id, hid, hp.mono (List.subset_append_right _ _)⟩
  ordered := by
    rw [List.pairwise_append]
    refine ⟨h₁.ordered.imp fun h hi => (h hi).mono (List.subset_append_left _ _),
      h₂.ordered.imp fun h hi => (h hi).mono (List.subset_append_right _ _), ?_⟩
    -- The earlier stretch imports nothing of the later one, which is not claimed yet.
    intro a ha b hb hi
    have hc := h₁.targets a ha b.id hi
    rw [h₂.fresh b hb] at hc
    cases hc

/-- A step that adds no module goes before a stretch. -/
theorem cons {i : ImportReference} (h : Grown g₁ g' is new) (hm : g₁.modules = g.modules)
    (hk : ∀ id, g.isVisited id = true → g₁.isVisited id = true)
    (hr : ∀ id, i.resolved = some id → g₁.isVisited id = true) : Grown g g' (i :: is) new :=
  (of_modules_eq hm hk hr).append h

/-- A module is put behind what its imports have added. -/
theorem push {i : ImportReference} {loc : Location} {text : String}
    (hf : g.isVisited loc.id = false)
    (h : Grown (g.begin (.parse loc.id text)) g₁ is new) :
    Grown g (g₁.push (moduleAt loc text is)) [{ i with resolved := some loc.id }]
      (new ++ [moduleAt loc text is]) := by
  have hvisited : g₁.isVisited loc.id = true := h.kept _ (by simp [SourceModule.parse])
  have hfresh : ∀ m ∈ new, m.id ≠ loc.id ∧ g.isVisited m.id = false := fun m hm => by
    simpa [SourceModule.parse] using h.fresh m hm
  -- Every module of the stretch is reached from the new one.
  have hpath : ∀ m ∈ new, ImportPath (new ++ [moduleAt loc text is]) loc.id m.id := by
    intro m hm
    obtain ⟨i, hi, id, hid, hp⟩ := h.reached m hm
    exact .of_import (m := moduleAt loc text is) (by simp) ⟨i, hi, hid⟩
      (hp.mono (List.subset_append_left _ _))
  constructor
  case modules => simp [h.modules]
  case kept => exact fun id hv => h.kept id (by simp [hv])
  case fresh =>
    intro m hm
    rcases List.mem_append.mp hm with hm | hm
    · exact (hfresh m hm).2
    · rw [List.mem_singleton.mp hm]; exact hf
  case claimed =>
    intro m hm
    rcases List.mem_append.mp hm with hm | hm
    · exact h.claimed m hm
    · rw [List.mem_singleton.mp hm]; exact hvisited
  case nodup =>
    rw [List.map_append, List.nodup_append]
    refine ⟨h.nodup, by simp, ?_⟩
    intro a ha b hb hab
    obtain ⟨m, hm, rfl⟩ := List.mem_map.mp ha
    exact (hfresh m hm).1 (hab.trans (by simpa using hb))
  case targets =>
    intro m hm id hid
    rcases List.mem_append.mp hm with hm | hm
    · exact h.targets m hm id hid
    · rw [List.mem_singleton.mp hm] at hid
      obtain ⟨i, hi, hid⟩ := hid
      exact h.resolved i hi id hid
  case resolved =>
    intro j hj id hid
    rw [List.mem_singleton.mp hj, Option.some.injEq] at hid
    rw [← hid]; exact hvisited
  case reached =>
    intro m hm
    refine ⟨_, List.mem_singleton_self _, loc.id, rfl, ?_⟩
    rcases List.mem_append.mp hm with hm | hm
    · exact hpath m hm
    · rw [List.mem_singleton.mp hm]; exact ReflTransGen.refl
  case ordered =>
    rw [List.pairwise_append]
    refine ⟨h.ordered.imp fun h hi => (h hi).mono (List.subset_append_left _ _), by simp, ?_⟩
    intro a ha b hb _
    rw [List.mem_singleton.mp hb]
    exact hpath a ha

end Grown

/-- **Every walk without an error grows the graph.** -/
theorem Resolver.Walked.grown {r : Resolver} {loc : Location} {is is' : List ImportReference}
    {g g' : Graph} (h : r.Walked loc is g is' g') (hi : ∀ i ∈ is, i.resolved = none) :
    ∃ new, Grown g g' is' new := by
  induction h with
  | done =>
    refine ⟨[], ?_⟩
    constructor <;> simp
  | missing _ left _ ih =>
    obtain ⟨-, d, rfl⟩ := unresolved_ok left
    obtain ⟨hnone, hrest⟩ := List.forall_mem_cons.mp hi
    obtain ⟨new, hn⟩ := ih hrest
    exact ⟨new, hn.cons rfl (fun _ h => h) (by simp [hnone])⟩
  | seen _ visited _ ih =>
    obtain ⟨new, hn⟩ := ih (List.forall_mem_cons.mp hi).2
    refine ⟨new, hn.cons rfl (fun _ h => h) ?_⟩
    intro id hid
    cases hid
    exact visited
  | entered _ fresh _ _ _ ihb ih =>
    obtain ⟨below, hb⟩ := ihb (by simp [SourceModule.parse])
    obtain ⟨new, hn⟩ := ih (List.forall_mem_cons.mp hi).2
    exact ⟨_, (hb.push fresh).append hn⟩
  | failed _ _ _ left _ ih =>
    obtain ⟨-, d, rfl⟩ := unresolved_ok left
    obtain ⟨hnone, hrest⟩ := List.forall_mem_cons.mp hi
    obtain ⟨new, hn⟩ := ih hrest
    exact ⟨new, hn.cons rfl (fun _ h => by simp [h]) (by simp [hnone])⟩

/-! ## Whole walks -/

/-- What a walk from a location adds to a graph that is empty. -/
theorem Resolver.grown_of_visit {r : Resolver} {root : Location} {g : Graph}
    (h : r.visit root .empty = ⟨g, none⟩) :
    ∃ i new, Grown .empty g [i] new ∧ g.modules = new ∧
      g.modules.getLast?.map (·.id) = some root.id := by
  obtain ⟨text, imports, g₁, -, hw, rfl⟩ := walked_of_visit rfl h
  obtain ⟨below, hb⟩ := hw.grown (by simp [SourceModule.parse])
  have hg := hb.push (i := ⟨"", .relative, none⟩) (g := .empty) rfl
  refine ⟨_, _, hg, by simpa using hg.modules, ?_⟩
  simp

/-- **Dependencies come first.** A module that does not come behind its dependency can be reached
from it, and the root comes last. Any view and any remote can stand behind the resolver. -/
theorem Resolver.dependencies_first {r : Resolver} {root : Location} {g : Graph}
    (h : r.visit root .empty = ⟨g, none⟩) :
    g.modules.getLast?.map (·.id) = some root.id ∧
    ∀ (j k : Nat) (hj : j < g.modules.length) (hk : k < g.modules.length),
      g.modules[k].ImportsId g.modules[j].id →
      ¬ ImportPath g.modules g.modules[j].id g.modules[k].id → j < k := by
  obtain ⟨i, new, hg, rfl, hlast⟩ := grown_of_visit h
  refine ⟨hlast, fun j k hj hk himp hpath => ?_⟩
  rcases Nat.lt_trichotomy j k with hlt | rfl | hlt
  · exact hlt
  · exact absurd ReflTransGen.refl hpath
  · exact absurd (List.pairwise_iff_getElem.mp hg.ordered k j hk hj hlt himp) hpath

/-- Two modules with one base, one of which imports the root again. -/
def diamond : Resolver where
  view := (MemoryFiles.ofList
    [("Main.sol", "import \"./A.sol\"; import \"./B.sol\";"), ("A.sol", "import \"./Base.sol\";"),
     ("B.sol", "import \"./Base.sol\"; import \"./Main.sol\";"),
     ("Base.sol", "contract Base {}")]).view
  remote := .disabled
  settings := {}

/-- No import of the base leads back to its importer, so it comes first; the root comes behind the
module that imports it, which it leads to. -/
theorem Resolver.dependencies_first_diamond :
    ∃ g, diamond.visit (.file ⟨"Main.sol"⟩) .empty = ⟨g, none⟩ ∧
      g.modules.map (fun m => (m.id, m.imports.filterMap (·.resolved))) =
        [("Base.sol", []), ("A.sol", ["Base.sol"]), ("B.sol", ["Base.sol", "Main.sol"]),
         ("Main.sol", ["A.sol", "B.sol"])] ∧
      g.modules.getLast?.map (·.id) = some (Location.file ⟨"Main.sol"⟩).id ∧
      (∀ (j k : Nat) (hj : j < g.modules.length) (hk : k < g.modules.length),
        g.modules[k].ImportsId g.modules[j].id →
        ¬ ImportPath g.modules g.modules[j].id g.modules[k].id → j < k) ∧
      (∀ (j k : Nat) (hj : j < g.modules.length) (hk : k < g.modules.length),
        g.modules[j].id = "Base.sol" → g.modules[k].ImportsId "Base.sol" →
        ¬ ImportPath g.modules g.modules[j].id g.modules[k].id ∧ j < k) ∧
      ImportEdge g.modules "A.sol" "Base.sol" ∧ ImportEdge g.modules "B.sol" "Base.sol" ∧
      ImportEdge g.modules "B.sol" "Main.sol" ∧ ImportPath g.modules "Main.sol" "B.sol" := by
  have h : diamond.visit (.file ⟨"Main.sol"⟩) .empty =
        ⟨(diamond.visit (.file ⟨"Main.sol"⟩) .empty).graph, none⟩ ∧
      (diamond.visit (.file ⟨"Main.sol"⟩) .empty).graph.modules.map
          (fun m => (m.id, m.imports.filterMap (·.resolved))) =
        [("Base.sol", []), ("A.sol", ["Base.sol"]), ("B.sol", ["Base.sol", "Main.sol"]),
         ("Main.sol", ["A.sol", "B.sol"])] := by decide +kernel
  generalize (diamond.visit (.file ⟨"Main.sol"⟩) .empty).graph = g at h
  obtain ⟨hvisit, hedges⟩ := h
  obtain ⟨hlast, hordered⟩ := dependencies_first hvisit
  have hedge {a b : String} := @importEdge_iff g.modules a b
  rw [hedges] at hedge
  refine ⟨g, hvisit, hedges, hlast, hordered, fun j k hj hk hbase himport => ?_, ?_, ?_, ?_, ?_⟩
  · have hpath : ¬ ImportPath g.modules g.modules[j].id g.modules[k].id := by
      intro hpath
      rw [hbase] at hpath
      rcases ReflTransGen.cases_head hpath with hsame | ⟨b, hout, -⟩
      · exact absurd (hedge.mp ⟨_, List.getElem_mem hk, hsame.symm, himport⟩) (by simp)
      · exact absurd (hedge.mp hout) (by simp)
    exact ⟨hpath, hordered j k hj hk (hbase ▸ himport) hpath⟩
  · exact hedge.mpr (by simp)
  · exact hedge.mpr (by simp)
  · exact hedge.mpr (by simp)
  · exact ReflTransGen.single (hedge.mpr (by simp))

end ContractBuild
