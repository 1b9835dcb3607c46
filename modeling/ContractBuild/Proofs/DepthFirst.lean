import ContractBuild.Proofs.Walk
import Mathlib.Data.List.Perm.Basic

/-!
# The order in which modules are begun

A walk counts the directives of a module when the module is begun, and adds its body when it is
finished. The order of beginning is said here without the recursion of a walk, by a list of
locations that wait: the first is taken off, and the targets of its imports are put in front of the
others.

- **Depth-first order** (`DepthFirst`): the modules in the order in which they are begun. There is
  at most one such order (`DepthFirst.unique`).
- **Tours** (`Toured`): what a walk over some locations does to the directives, the modules and the
  order. Tours that follow each other make a tour (`Toured.trans`), and so does a module around the
  tour of its imports (`Toured.around`).
- **Walks** (`Walked.toured`, `toured_of_visit`): every walk without an error is a tour.
-/

namespace ContractBuild

open Solidity

namespace Resolver

/-! ## Depth-first order -/

/-- The locations that the imports of a text mean, in the order of their declaration. -/
def targets (r : Resolver) (loc : Location) (text : String) : List Location :=
  (importPaths text).filterMap (r.locate loc)

/-- `r.DepthFirst seen waiting order`: when the ids in `seen` are taken and the locations in
`waiting` are still to be visited, the modules of `order` are begun, in this order. -/
inductive DepthFirst (r : Resolver) : KeySet → List Location → List SourceModule → Prop where
  | done {seen : KeySet} : DepthFirst r seen [] []
  /-- The id of the first location is taken. -/
  | taken {seen : KeySet} {loc : Location} {waiting : List Location} {order : List SourceModule}
      (old : seen.contains loc.id = true) (later : DepthFirst r seen waiting order) :
      DepthFirst r seen (loc :: waiting) order
  /-- A module is begun before all that it imports, and what it imports before all that waits. -/
  | begun {seen : KeySet} {loc : Location} {text : String} {waiting : List Location}
      {order : List SourceModule} (fresh : seen.contains loc.id = false)
      (read : r.load loc = .ok text)
      (later : DepthFirst r (seen.add loc.id) (r.targets loc text ++ waiting) order) :
      DepthFirst r seen (loc :: waiting) (.parse loc.id text :: order)
  /-- There is no text at the first location. -/
  | lost {seen : KeySet} {loc : Location} {cause : Failure} {waiting : List Location}
      {order : List SourceModule} (fresh : seen.contains loc.id = false)
      (unread : r.load loc = .error cause)
      (later : DepthFirst r (seen.add loc.id) waiting order) :
      DepthFirst r seen (loc :: waiting) order

variable {r : Resolver}

/-- **There is only one order.** -/
theorem DepthFirst.unique {seen : KeySet} {waiting : List Location}
    {order order' : List SourceModule} (h : r.DepthFirst seen waiting order)
    (h' : r.DepthFirst seen waiting order') : order = order' := by
  induction h generalizing order' with
  | done =>
    cases h'
    rfl
  | taken old _ ih =>
    cases h' with
    | taken _ later => exact ih later
    | begun fresh | lost fresh => cases old.symm.trans fresh
  | begun fresh read _ ih =>
    cases h' with
    | taken old => cases old.symm.trans fresh
    | begun _ read' later =>
      cases read.symm.trans read'
      rw [ih later]
    | lost _ unread => cases read.symm.trans unread
  | lost fresh unread _ ih =>
    cases h' with
    | taken old => cases old.symm.trans fresh
    | begun _ read => cases read.symm.trans unread
    | lost _ _ later => exact ih later

/-! ## Tours -/

/-- A module as it was read, with its imports as they are written. -/
def asRead (m : SourceModule) : SourceModule := .parse m.id m.text

/-- What a walk over some locations does: the modules of `order` are begun, in this order, and all
of them are finished. -/
structure Toured (r : Resolver) (g : Graph) (locs : List Location) (order : List SourceModule)
    (g' : Graph) : Prop where
  /-- The first pragma stays. -/
  pragma : g'.pragma = g.pragma.or (order.findSome? (·.pragma))
  licenses : g'.licenses = g.licenses.addAll (order.flatMap (·.licenses))
  modules : ∃ new, g'.modules = g.modules ++ new ∧ (new.map asRead).Perm order ∧
    ∀ m ∈ new, m.body = (asRead m).body
  /-- Whatever else waits is visited from where the walk has ended. -/
  before : ∀ waiting later, r.DepthFirst g'.visited waiting later →
    r.DepthFirst g.visited (locs ++ waiting) (order ++ later)

namespace Toured

variable {g g₁ g' : Graph} {locs locs₁ locs₂ : List Location}
  {order order₁ order₂ : List SourceModule}

/-- A walk that begins no module and leaves the directives as they are. -/
theorem idle (hpragma : g'.pragma = g.pragma) (hlicenses : g'.licenses = g.licenses)
    (hmodules : g'.modules = g.modules)
    (hbefore : ∀ waiting later, r.DepthFirst g'.visited waiting later →
      r.DepthFirst g.visited (locs ++ waiting) later) : r.Toured g locs [] g' where
  pragma := by rw [hpragma, List.findSome?_nil, Option.or_none]
  licenses := hlicenses
  modules := ⟨[], by rw [hmodules, List.append_nil], .refl [], nofun⟩
  before := hbefore

/-- Tours that follow each other. -/
theorem trans (h₁ : r.Toured g locs₁ order₁ g₁) (h₂ : r.Toured g₁ locs₂ order₂ g') :
    r.Toured g (locs₁ ++ locs₂) (order₁ ++ order₂) g' where
  pragma := by rw [h₂.pragma, h₁.pragma, Option.or_assoc, List.findSome?_append]
  licenses := by
    rw [h₂.licenses, h₁.licenses, List.flatMap_append, KeySet.addAll, KeySet.addAll, KeySet.addAll,
      List.foldl_append]
  modules := by
    obtain ⟨new₁, hm₁, hperm₁, hbody₁⟩ := h₁.modules
    obtain ⟨new₂, hm₂, hperm₂, hbody₂⟩ := h₂.modules
    refine ⟨new₁ ++ new₂, by rw [hm₂, hm₁, List.append_assoc], ?_, ?_⟩
    · rw [List.map_append]
      exact hperm₁.append hperm₂
    · exact List.forall_mem_append.2 ⟨hbody₁, hbody₂⟩
  before waiting later h := by
    rw [List.append_assoc, List.append_assoc]
    exact h₁.before _ _ (h₂.before _ _ h)

/-- A module around the tour of its imports: it is begun before them and finished behind them. -/
theorem around {loc : Location} {text : String} {imports : List ImportReference}
    (fresh : g.isVisited loc.id = false) (read : r.load loc = .ok text)
    (h : r.Toured (g.begin (.parse loc.id text)) (r.targets loc text) order g₁) :
    r.Toured g [loc] (.parse loc.id text :: order) (g₁.push (moduleAt loc text imports)) where
  pragma := by
    have hpragma : g₁.pragma = (g.pragma.or (SourceModule.parse loc.id text).pragma).or
        (order.findSome? (·.pragma)) := h.pragma
    rw [← List.singleton_append, List.findSome?_append, List.findSome?_singleton,
      ← Option.or_assoc]
    exact hpragma
  licenses := by
    have hlicenses : g₁.licenses =
        (g.licenses.addAll (SourceModule.parse loc.id text).licenses).addAll
          (order.flatMap (·.licenses)) := h.licenses
    rw [List.flatMap_cons, KeySet.addAll, List.foldl_append]
    exact hlicenses
  modules := by
    obtain ⟨new, hm, hperm, hbody⟩ := h.modules
    refine ⟨new ++ [moduleAt loc text imports], ?_, ?_, ?_⟩
    · rw [Graph.modules_push, hm, Graph.modules_begin, List.append_assoc]
    · rw [List.map_append]
      exact (List.perm_append_singleton _ _).trans (hperm.cons _)
    · exact List.forall_mem_append.2 ⟨hbody, List.forall_mem_singleton.2 rfl⟩
  before waiting later hlater := .begun fresh read (h.before waiting later hlater)

end Toured

/-! ## Walks -/

/-- The imports of a module that was read have the targets of its text. -/
theorem targets_parse (r : Resolver) (loc : Location) (text : String) :
    ((SourceModule.parse loc.id text).imports.map (·.raw)).filterMap (r.locate loc) =
      r.targets loc text := by
  simp [SourceModule.parse, targets, Function.comp_def]

/-- **Every walk without an error is a tour** of the targets of the imports that it follows. -/
theorem Walked.toured {loc : Location} {is is' : List ImportReference} {g g' : Graph}
    (h : r.Walked loc is g is' g') :
    ∃ order, r.Toured g ((is.map (·.raw)).filterMap (r.locate loc)) order g' := by
  induction h with
  | done => exact ⟨[], .idle rfl rfl rfl fun _ _ h => h⟩
  | @missing _ _ _ _ g _ _ located left _ ih =>
    obtain ⟨-, d, rfl⟩ := unresolved_ok left
    obtain ⟨order, hrest⟩ := ih
    refine ⟨order, ?_⟩
    rw [List.map_cons, List.filterMap_cons_none located]
    have hfirst : r.Toured g [] [] (g.report d) := .idle rfl rfl rfl fun _ _ h => h
    exact hfirst.trans hrest
  | @seen _ target _ _ _ g _ located visited _ ih =>
    obtain ⟨order, hrest⟩ := ih
    refine ⟨order, ?_⟩
    rw [List.map_cons, List.filterMap_cons_some located]
    have hfirst : r.Toured g [target] [] g := .idle rfl rfl rfl fun _ _ h => .taken visited h
    exact hfirst.trans hrest
  | @entered _ target text _ _ _ _ _ _ _ located fresh read _ _ ihb ih =>
    obtain ⟨below, hbelow⟩ := ihb
    obtain ⟨order, hrest⟩ := ih
    refine ⟨.parse target.id text :: below ++ order, ?_⟩
    rw [List.map_cons, List.filterMap_cons_some located]
    rw [targets_parse] at hbelow
    exact (Toured.around fresh read hbelow).trans hrest
  | @failed _ ref _ _ _ _ g _ _ located fresh lost left _ ih =>
    obtain ⟨-, d, rfl⟩ := unresolved_ok left
    obtain ⟨order, hrest⟩ := ih
    refine ⟨order, ?_⟩
    rw [List.map_cons, List.filterMap_cons_some located]
    have hfirst : r.Toured g [.remote ref] [] ((g.claim ref.id).report d) :=
      .idle rfl rfl rfl fun _ _ h => .lost fresh lost h
    exact hfirst.trans hrest

/-- A whole walk is a tour of its root, which is begun first. -/
theorem toured_of_visit {root : Location} {g : Graph} (h : r.visit root .empty = ⟨g, none⟩) :
    ∃ text rest, r.load root = .ok text ∧
      r.Toured .empty [root] (.parse root.id text :: rest) g := by
  obtain ⟨text, imports, g₁, read, hwalked, rfl⟩ := walked_of_visit rfl h
  obtain ⟨rest, hrest⟩ := hwalked.toured
  rw [targets_parse] at hrest
  exact ⟨text, rest, read, .around rfl read hrest⟩

end Resolver

end ContractBuild
