import ContractBuild.Proofs.Strictness
import Mathlib.Data.List.Perm.Basic

/-!
# Every import is accounted for

- **References** (`leftOut`): the imports of a module that were recorded as unresolved.
- **What a walk reports** (`Reported`): a walk adds one diagnostic for each reference that it leaves
  out, and every id that it claims belongs to a module that it adds or to a remote file whose first
  reference it reports as failed.

Main statement: `references_accounted`. An import that was resolved does not always lead to a
module: a second reference to a remote file that could not be fetched is recorded as resolved
(`second_reference_counts_as_resolved`).
-/

namespace ContractBuild

open Solidity

/-- The importer and the path of a diagnostic. -/
def ResolutionDiagnostic.reference (d : ResolutionDiagnostic) : String × String :=
  (d.importer, d.target)

/-- The imports that a module with an id was left without. -/
def leftOut (id : String) (imports : List ImportReference) : List (String × String) :=
  (imports.filter (! ·.isResolved)).map fun i => (id, i.raw)

theorem leftOut_cons_of_none {i : ImportReference} (h : i.resolved = none) (id : String)
    (rest : List ImportReference) : leftOut id (i :: rest) = (id, i.raw) :: leftOut id rest := by
  simp [leftOut, ImportReference.isResolved, h]

theorem leftOut_cons_of_some (id target : String) (i : ImportReference)
    (rest : List ImportReference) :
    leftOut id ({ i with resolved := some target } :: rest) = leftOut id rest := by
  simp [leftOut, ImportReference.isResolved]

/-- The references of some modules that are left out. -/
def leftOutOf (ms : List SourceModule) : List (String × String) :=
  ms.flatMap fun m => leftOut m.id m.imports

namespace Resolver

variable {r : Resolver}

/-- A diagnostic that reports the remote file with an id as failed. -/
def Failed (r : Resolver) (d : ResolutionDiagnostic) (id : String) : Prop :=
  ∃ loc ref cause, loc.id = d.importer ∧ r.locate loc d.target = some (.remote ref) ∧ ref.id = id ∧
    r.remote.fetch ref = .error cause ∧
    (ResolutionError.remote d.importer d.target cause).ReportedAs d

/-- An import that is left out without an error is reported by its importer and its path. -/
theorem unresolved_reports {g g' : Graph} {importer target : String} {cause : Option Failure}
    (h : r.unresolved g importer target cause = ⟨g', none⟩) :
    ∃ d, g' = g.report d ∧ d.importer = importer ∧ d.target = target ∧
      ∀ c, cause = some c → (ResolutionError.remote importer target c).ReportedAs d := by
  obtain ⟨hs, -⟩ := unresolved_ok h
  cases cause with
  | none =>
    simp only [unresolved, hs, Bool.false_eq_true, ↓reduceIte, Progress.mk.injEq, and_true] at h
    exact ⟨_, h.symm, rfl, rfl, by simp⟩
  | some c =>
    simp only [unresolved, hs, Bool.false_eq_true, ↓reduceIte, Progress.mk.injEq, and_true] at h
    refine ⟨_, h.symm, rfl, rfl, fun c' hc => ?_⟩
    cases hc
    exact .remote importer target c

/-- What a walk over the imports of a module adds: modules and diagnostics. -/
structure Reported (r : Resolver) (loc : Location) (imports : List ImportReference) (g g' : Graph)
    (new : List SourceModule) (ds : List ResolutionDiagnostic) : Prop where
  modules : g'.modules = g.modules ++ new
  diagnostics : g'.diagnostics = g.diagnostics ++ ds
  references : (ds.map (·.reference)).Perm (leftOutOf new ++ leftOut loc.id imports)
  claims : ∀ id, g'.isVisited id = true →
    g.isVisited id = true ∨ (∃ m ∈ new, m.id = id) ∨ ∃ d ∈ ds, r.Failed d id

namespace Reported

variable {loc target : Location} {i : ImportReference} {inner rest : List ImportReference}
  {g g₁ g' : Graph} {new below : List SourceModule} {ds ds' : List ResolutionDiagnostic}

/-- An import that is resolved without a new module goes before a walk. -/
theorem seen (h : r.Reported loc rest g g' new ds) (id : String) :
    r.Reported loc ({ i with resolved := some id } :: rest) g g' new ds :=
  { h with references := by rw [leftOut_cons_of_some]; exact h.references }

/-- An import that is reported goes before a walk. All that it may claim is the id of the remote
file that it reports as failed. -/
theorem left {d : ResolutionDiagnostic} (h : r.Reported loc rest g₁ g' new ds)
    (hi : i.resolved = none) (hm : g₁.modules = g.modules)
    (hd : g₁.diagnostics = g.diagnostics ++ [d]) (hr : d.reference = (loc.id, i.raw))
    (hc : ∀ id, g₁.isVisited id = true → g.isVisited id = true ∨ r.Failed d id) :
    r.Reported loc (i :: rest) g g' new (d :: ds) where
  modules := by rw [h.modules, hm]
  diagnostics := by rw [h.diagnostics, hd, List.append_assoc, List.singleton_append]
  references := by
    rw [leftOut_cons_of_none hi, List.map_cons, hr]
    exact (h.references.cons _).trans List.perm_middle.symm
  claims id hv := by
    rcases h.claims id hv with hv | hm | ⟨d', hd', hf⟩
    · exact (hc id hv).imp_right fun hf => .inr ⟨d, by simp, hf⟩
    · exact .inr (.inl hm)
    · exact .inr (.inr ⟨d', by simp [hd'], hf⟩)

/-- The walk below a module, the module, and the walk behind it. -/
theorem entered {text : String}
    (hb : r.Reported target inner (g.begin (.parse target.id text)) g₁ below ds)
    (h : r.Reported loc rest (g₁.push (moduleAt target text inner)) g' new ds') :
    r.Reported loc ({ i with resolved := some target.id } :: rest) g g'
      (below ++ moduleAt target text inner :: new) (ds ++ ds') where
  modules := by rw [h.modules, Graph.modules_push, hb.modules, Graph.modules_begin]; simp
  diagnostics := by rw [h.diagnostics, Graph.diagnostics_push, hb.diagnostics,
    Graph.diagnostics_begin, List.append_assoc]
  references := by
    rw [leftOut_cons_of_some, List.map_append]
    refine (hb.references.append h.references).trans (.of_eq ?_)
    simp [leftOutOf, moduleAt, SourceModule.parse]
  claims id hv := by
    rcases h.claims id hv with hv | ⟨m, hm, hid⟩ | ⟨d, hd, hf⟩
    · rcases hb.claims id hv with hv | ⟨m, hm, hid⟩ | ⟨d, hd, hf⟩
      · rw [Graph.isVisited_begin, Bool.or_eq_true, beq_iff_eq] at hv
        rcases hv with rfl | hv
        · exact .inr (.inl ⟨moduleAt target text inner, by simp, rfl⟩)
        · exact .inl hv
      · exact .inr (.inl ⟨m, by simp [hm], hid⟩)
      · exact .inr (.inr ⟨d, by simp [hd], hf⟩)
    · exact .inr (.inl ⟨m, by simp [hm], hid⟩)
    · exact .inr (.inr ⟨d, by simp [hd], hf⟩)

end Reported

/-- **A walk reports each reference that it leaves out, once.** -/
theorem Walked.reported {loc : Location} {is is' : List ImportReference} {g g' : Graph}
    (h : r.Walked loc is g is' g') (hi : ∀ i ∈ is, i.resolved = none) :
    ∃ new ds, r.Reported loc is' g g' new ds := by
  induction h with
  | done => exact ⟨[], [], by simp, by simp, by simp [leftOutOf, leftOut], fun _ h => .inl h⟩
  | missing _ left _ ih =>
    obtain ⟨hnone, hrest⟩ := List.forall_mem_cons.mp hi
    obtain ⟨d, rfl, himporter, htarget, -⟩ := unresolved_reports left
    obtain ⟨new, ds, hrep⟩ := ih hrest
    exact ⟨new, d :: ds, hrep.left hnone rfl rfl (by rw [← himporter, ← htarget]; rfl)
      fun _ h => .inl h⟩
  | seen _ _ _ ih =>
    obtain ⟨new, ds, hrep⟩ := ih (List.forall_mem_cons.mp hi).2
    exact ⟨new, ds, hrep.seen _⟩
  | entered _ _ _ _ _ ihb ih =>
    obtain ⟨below, ds, hbelow⟩ := ihb (by simp [SourceModule.parse])
    obtain ⟨new, ds', hrep⟩ := ih (List.forall_mem_cons.mp hi).2
    exact ⟨_, _, hbelow.entered hrep⟩
  | @failed loc ref cause i rest rest' g g₁ g' located _ lost left _ ih =>
    obtain ⟨hnone, hrest⟩ := List.forall_mem_cons.mp hi
    obtain ⟨d, rfl, himporter, htarget, hreported⟩ := unresolved_reports left
    obtain ⟨new, ds, hrep⟩ := ih hrest
    refine ⟨new, d :: ds, hrep.left hnone rfl rfl (by rw [← himporter, ← htarget]; rfl) ?_⟩
    intro id hv
    rw [Graph.isVisited_report, Graph.isVisited_claim, Bool.or_eq_true, beq_iff_eq] at hv
    rcases hv with rfl | hv
    · refine .inr ⟨loc, ref, cause, himporter.symm, by rw [htarget]; exact located, rfl, lost, ?_⟩
      rw [himporter, htarget]
      exact hreported cause rfl
    · exact .inl hv

/-- What a walk from a location reports. -/
theorem reported_of_visit {root : Location} {g : Graph} (h : r.visit root .empty = ⟨g, none⟩) :
    r.Reported root [] .empty g g.modules g.diagnostics := by
  obtain ⟨text, imports, g₁, -, hw, rfl⟩ := walked_of_visit rfl h
  obtain ⟨new, ds, hrep⟩ := hw.reported (by simp [SourceModule.parse])
  have hdone : r.Reported root [] (g₁.push (moduleAt root text imports))
      (g₁.push (moduleAt root text imports)) [] [] :=
    ⟨by simp, by simp, by simp [leftOutOf, leftOut], fun _ h => .inl h⟩
  have hall := hrep.entered (i := ⟨"", .relative, none⟩) hdone
  have hmodules := hall.modules
  have hdiagnostics := hall.diagnostics
  rw [Graph.modules_empty, List.nil_append] at hmodules
  rw [Graph.diagnostics_empty, List.nil_append] at hdiagnostics
  rw [hmodules, hdiagnostics]
  exact { hall with references := by rw [← leftOut_cons_of_some]; exact hall.references }

/-- **Every import is accounted for.** The diagnostics are one for each reference that was left out,
and their number is the reported one. An import that was resolved has the id of a finished module,
or of a remote file whose first reference is reported as failed. -/
theorem references_accounted {root : Location} {g : Graph} (h : r.visit root .empty = ⟨g, none⟩) :
    (g.diagnostics.map (·.reference)).Perm (leftOutOf g.modules) ∧
    g.unresolvedCount = (leftOutOf g.modules).length ∧
    ∀ m ∈ g.modules, ∀ i ∈ m.imports,
      (i.resolved = none ∧ ∃ d ∈ g.diagnostics, d.importer = m.id ∧ d.target = i.raw) ∨
      ∃ id, i.resolved = some id ∧
        ((∃ m' ∈ g.modules, m'.id = id) ∨ ∃ d ∈ g.diagnostics, r.Failed d id) := by
  have hrep := reported_of_visit h
  have hperm : (g.diagnostics.map (·.reference)).Perm (leftOutOf g.modules) := by
    simpa [leftOut] using hrep.references
  refine ⟨hperm, by simpa [Graph.unresolvedCount] using hperm.length_eq, fun m hm i hi => ?_⟩
  cases hres : i.resolved with
  | none =>
    have hleft : i ∈ m.imports.filter (! ·.isResolved) :=
      List.mem_filter.mpr ⟨hi, by simp [ImportReference.isResolved, hres]⟩
    have hmem : (m.id, i.raw) ∈ leftOutOf g.modules :=
      List.mem_flatMap.mpr ⟨m, hm, List.mem_map.mpr ⟨i, hleft, rfl⟩⟩
    obtain ⟨d, hd, heq⟩ := List.mem_map.mp (hperm.mem_iff.mpr hmem)
    obtain ⟨himporter, htarget⟩ := Prod.mk.inj heq
    exact .inl ⟨rfl, d, hd, himporter, htarget⟩
  | some id =>
    obtain ⟨_, new, hgrown, rfl, -⟩ := grown_of_visit h
    rcases hrep.claims id (hgrown.targets m hm id ⟨i, hi, hres⟩) with hv | hfound
    · simp at hv
    · exact .inr ⟨id, rfl, hfound⟩

/-- Two modules that import one remote file, which cannot be fetched. -/
def sharedRemote : Resolver :=
  inMemory (.ofList
    [("Main.sol", "import \"./A.sol\"; import \"github.com/o/r/X.sol\";"),
     ("A.sol", "import \"github.com/o/r/X.sol\";")]) none { dependencyDirs := [] }

/-- What is gathered from the root of `sharedRemote`. -/
def sharedGraph : Graph := (sharedRemote.visit (.file ⟨"Main.sol"⟩) .empty).graph

theorem visit_sharedRemote :
    sharedRemote.visit (.file ⟨"Main.sol"⟩) .empty = ⟨sharedGraph, none⟩ := by
  rw [sharedGraph]
  exact Progress.eq_of_error (by decide +kernel)

theorem references_accounted_sharedRemote :
    sharedRemote.visit (.file ⟨"Main.sol"⟩) .empty = ⟨sharedGraph, none⟩ ∧
    (sharedGraph.diagnostics.map (·.reference)).Perm (leftOutOf sharedGraph.modules) ∧
    sharedGraph.unresolvedCount = (leftOutOf sharedGraph.modules).length ∧
    ∀ m ∈ sharedGraph.modules, ∀ i ∈ m.imports,
      (i.resolved = none ∧ ∃ d ∈ sharedGraph.diagnostics, d.importer = m.id ∧ d.target = i.raw) ∨
      ∃ id, i.resolved = some id ∧ ((∃ m' ∈ sharedGraph.modules, m'.id = id) ∨
        ∃ d ∈ sharedGraph.diagnostics, sharedRemote.Failed d id) :=
  ⟨visit_sharedRemote, references_accounted visit_sharedRemote⟩

/-- **A second reference to a remote file that could not be fetched counts as resolved,** though no
module has its id, and is not reported. -/
theorem second_reference_counts_as_resolved :
    sharedRemote.visit (.file ⟨"Main.sol"⟩) .empty = ⟨sharedGraph, none⟩ ∧
    (∃ m ∈ sharedGraph.modules, m.id = "Main.sol" ∧
      m.imports.map (·.resolved) = [some "A.sol", some "github.com/o/r/X.sol"]) ∧
    "github.com/o/r/X.sol" ∉ sharedGraph.modules.map (·.id) ∧
    sharedGraph.diagnostics.map (·.reference) = [("A.sol", "github.com/o/r/X.sol")] ∧
    sharedGraph.unresolvedCount = 1 := by
  refine ⟨visit_sharedRemote, ?_⟩
  decide +kernel

end Resolver

end ContractBuild
