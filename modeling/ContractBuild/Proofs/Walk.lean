import ContractBuild.Source.Graph

/-!
# Walks that end without an error

`Resolver.Walked` is the derivation of a walk over the imports of one module: one rule for each
thing that can become of an import. It holds no bound on the length of chains, so proofs about walks
follow the graph and never the bound.

* `follow_cases`: all that following one import can do.
* `walked_of_enter`, `walked_of_visit`: a walk without an error has a derivation.
* `Walked.isVisited`: what was claimed stays claimed.
-/

namespace ContractBuild

open Solidity

/-! ## What each step does to the graph -/

namespace Graph

variable (g : Graph)

@[simp] theorem isVisited_claim (key other : String) :
    (g.claim key).isVisited other = (other == key || g.isVisited other) :=
  KeySet.contains_add g.visited key other

@[simp] theorem isVisited_record (pragma : Option String) (licenses : List String) (key : String) :
    (g.record pragma licenses).isVisited key = g.isVisited key := rfl

@[simp] theorem isVisited_push (m : SourceModule) (key : String) :
    (g.push m).isVisited key = g.isVisited key := rfl

@[simp] theorem isVisited_report (d : ResolutionDiagnostic) (key : String) :
    (g.report d).isVisited key = g.isVisited key := rfl

@[simp] theorem isVisited_empty (key : String) : empty.isVisited key = false := rfl

@[simp] theorem modules_claim (key : String) : (g.claim key).modules = g.modules := rfl

@[simp] theorem modules_record (pragma : Option String) (licenses : List String) :
    (g.record pragma licenses).modules = g.modules := rfl

@[simp] theorem modules_push (m : SourceModule) : (g.push m).modules = g.modules ++ [m] := rfl

@[simp] theorem modules_report (d : ResolutionDiagnostic) : (g.report d).modules = g.modules := rfl

@[simp] theorem modules_empty : empty.modules = [] := rfl

@[simp] theorem diagnostics_claim (key : String) : (g.claim key).diagnostics = g.diagnostics := rfl

@[simp] theorem diagnostics_record (pragma : Option String) (licenses : List String) :
    (g.record pragma licenses).diagnostics = g.diagnostics := rfl

@[simp] theorem diagnostics_push (m : SourceModule) :
    (g.push m).diagnostics = g.diagnostics := rfl

@[simp] theorem diagnostics_report (d : ResolutionDiagnostic) :
    (g.report d).diagnostics = g.diagnostics ++ [d] := rfl

@[simp] theorem diagnostics_empty : empty.diagnostics = [] := rfl

/-- The graph when a module is claimed and its directives count. -/
def begin (m : SourceModule) : Graph := (g.claim m.id).record m.pragma m.licenses

@[simp] theorem isVisited_begin (m : SourceModule) (key : String) :
    (g.begin m).isVisited key = (key == m.id || g.isVisited key) := by
  simp [begin]

@[simp] theorem modules_begin (m : SourceModule) : (g.begin m).modules = g.modules := rfl

@[simp] theorem diagnostics_begin (m : SourceModule) :
    (g.begin m).diagnostics = g.diagnostics := rfl

end Graph

theorem Progress.eq_of_error {p : Progress} (h : p.error = none) : p = ⟨p.graph, none⟩ := by
  cases p
  cases h
  rfl

/-- The module at a location, with its imports as they are recorded. -/
def moduleAt (loc : Location) (text : String) (imports : List ImportReference) : SourceModule :=
  { SourceModule.parse loc.id text with imports }

@[simp] theorem moduleAt_id (loc : Location) (text : String) (imports : List ImportReference) :
    (moduleAt loc text imports).id = loc.id := rfl

namespace Resolver

variable {r : Resolver}

/-- An import that is left out without an error leaves a diagnostic, and the walk is lenient. -/
theorem unresolved_ok {g g' : Graph} {importer target : String} {cause : Option Failure}
    (h : r.unresolved g importer target cause = ⟨g', none⟩) :
    r.settings.strict = false ∧ ∃ d, g' = g.report d := by
  unfold unresolved at h
  split at h <;> split at h
  · simp at h
  · rename_i hs
    cases h
    exact ⟨by simpa using hs, _, rfl⟩
  · simp at h
  · rename_i hs
    cases h
    exact ⟨by simpa using hs, _, rfl⟩

/-! ## Derivations -/

/-- The imports of the module at a location, followed in order without an error: the imports as they
are written and the graph before, the imports as they are recorded and the graph after. -/
inductive Walked (r : Resolver) :
    Location → List ImportReference → Graph → List ImportReference → Graph → Prop where
  | done {loc : Location} {g : Graph} : Walked r loc [] g [] g
  /-- No location was found. -/
  | missing {loc : Location} {i : ImportReference} {rest rest' : List ImportReference}
      {g g₁ g' : Graph} (located : r.locate loc i.raw = none)
      (left : r.unresolved g loc.id i.raw none = ⟨g₁, none⟩)
      (later : Walked r loc rest g₁ rest' g') :
      Walked r loc (i :: rest) g (i :: rest') g'
  /-- The target was claimed before. -/
  | seen {loc target : Location} {i : ImportReference} {rest rest' : List ImportReference}
      {g g' : Graph} (located : r.locate loc i.raw = some target)
      (visited : g.isVisited target.id = true) (later : Walked r loc rest g rest' g') :
      Walked r loc (i :: rest) g ({ i with resolved := some target.id } :: rest') g'
  /-- The target is claimed, read, walked and finished. -/
  | entered {loc target : Location} {text : String} {i : ImportReference}
      {inner rest rest' : List ImportReference} {g g₁ g' : Graph}
      (located : r.locate loc i.raw = some target) (fresh : g.isVisited target.id = false)
      (read : r.load target = .ok text)
      (below : Walked r target (SourceModule.parse target.id text).imports
        (g.begin (.parse target.id text)) inner g₁)
      (later : Walked r loc rest (g₁.push (moduleAt target text inner)) rest' g') :
      Walked r loc (i :: rest) g ({ i with resolved := some target.id } :: rest') g'
  /-- The target is claimed and cannot be fetched. -/
  | failed {loc : Location} {ref : RemoteRef} {cause : Failure} {i : ImportReference}
      {rest rest' : List ImportReference} {g g₁ g' : Graph}
      (located : r.locate loc i.raw = some (.remote ref)) (fresh : g.isVisited ref.id = false)
      (lost : r.remote.fetch ref = .error cause)
      (left : r.unresolved (g.claim ref.id) loc.id i.raw (some cause) = ⟨g₁, none⟩)
      (later : Walked r loc rest g₁ rest' g') :
      Walked r loc (i :: rest) g (i :: rest') g'

/-- All that following one import can do without an error. -/
theorem follow_cases {enter : Location → String → Graph → Progress} {loc : Location}
    {i i' : ImportReference} {g g' : Graph} (h : r.follow enter loc i g = (i', ⟨g', none⟩)) :
    (r.locate loc i.raw = none ∧ i' = i ∧ r.unresolved g loc.id i.raw none = ⟨g', none⟩) ∨
    (∃ target, r.locate loc i.raw = some target ∧ i' = { i with resolved := some target.id } ∧
      g.isVisited target.id = true ∧ g' = g) ∨
    (∃ target text, r.locate loc i.raw = some target ∧
      i' = { i with resolved := some target.id } ∧ g.isVisited target.id = false ∧
      r.load target = .ok text ∧ enter target text (g.claim target.id) = ⟨g', none⟩) ∨
    (∃ ref cause, r.locate loc i.raw = some (.remote ref) ∧ i' = i ∧
      g.isVisited ref.id = false ∧ r.remote.fetch ref = .error cause ∧
      r.unresolved (g.claim ref.id) loc.id i.raw (some cause) = ⟨g', none⟩) := by
  unfold follow at h
  split at h
  · rename_i hl
    simp only [Prod.mk.injEq] at h
    exact .inl ⟨hl, h.1.symm, h.2⟩
  · rename_i p hl
    simp only [Prod.mk.injEq, visitWith] at h
    obtain ⟨rfl, h⟩ := h
    split at h
    · rename_i hv
      exact .inr (.inl ⟨_, hl, rfl, hv, by simpa [eq_comm] using h⟩)
    · rename_i hv
      split at h
      · rename_i text ht
        exact .inr (.inr (.inl ⟨_, text, hl, rfl, by simpa using hv, ht, h⟩))
      · simp at h
  · rename_i ref hl
    simp only at h
    split at h
    · rename_i hv
      simp only [Prod.mk.injEq, Progress.mk.injEq, and_true] at h
      exact .inr (.inl ⟨_, hl, h.1.symm, hv, h.2.symm⟩)
    · rename_i hv
      have hv' : g.isVisited ref.id = false := by simpa [Location.id] using hv
      split at h
      · rename_i text ht
        simp only [Prod.mk.injEq] at h
        exact .inr (.inr (.inl ⟨_, text, hl, h.1.symm, hv', ht, h.2⟩))
      · rename_i cause hf
        simp only [Prod.mk.injEq] at h
        exact .inr (.inr (.inr ⟨ref, cause, hl, h.1.symm, hv', hf, h.2⟩))

/-- What follows the reading of a claimed module is a walk over its imports, after which the module
is finished. -/
def Walks (r : Resolver) (enter : Location → String → Graph → Progress) : Prop :=
  ∀ (loc : Location) (text : String) (g g' : Graph), enter loc text (g.claim loc.id) = ⟨g', none⟩ →
    ∃ imports g₁, Walked r loc (SourceModule.parse loc.id text).imports
      (g.begin (.parse loc.id text)) imports g₁ ∧
      g' = g₁.push (moduleAt loc text imports)

theorem walked_of_followAll {enter : Location → String → Graph → Progress} (he : r.Walks enter)
    {loc : Location} {is is' : List ImportReference} {g g' : Graph}
    (h : followAll (r.follow enter loc) is g = (is', ⟨g', none⟩)) : Walked r loc is g is' g' := by
  induction is generalizing g is' with
  | nil =>
    simp only [followAll, Prod.mk.injEq, Progress.mk.injEq, and_true] at h
    obtain ⟨rfl, rfl⟩ := h
    exact .done
  | cons i rest ih =>
    rw [followAll] at h
    split at h
    · simp at h
    · rename_i i' g₁ hstep
      obtain ⟨rest', ⟨g₂, e⟩, hrest⟩ : ∃ rest' p, followAll (r.follow enter loc) rest g₁ = (rest', p) :=
        ⟨_, _, rfl⟩
      rw [hrest] at h
      simp only [Prod.mk.injEq, Progress.mk.injEq] at h
      obtain ⟨rfl, rfl, rfl⟩ := h
      have later := ih hrest
      rcases follow_cases hstep with ⟨hl, rfl, hu⟩ | ⟨target, hl, rfl, hv, rfl⟩ |
        ⟨target, text, hl, rfl, hv, ht, hin⟩ | ⟨ref, cause, hl, rfl, hv, hf, hu⟩
      · exact .missing hl hu later
      · exact .seen hl hv later
      · obtain ⟨inner, g₂, below, rfl⟩ := he _ _ _ _ hin
        exact .entered hl hv ht below later
      · exact .failed hl hv hf hu later

/-- **A walk without an error has a derivation,** whatever the bound on the length of chains. -/
theorem walked_of_enter (n : Nat) : r.Walks (r.enter n) := by
  induction n with
  | zero => intro loc text g g' h; simp [enter] at h
  | succ n ih =>
    intro loc text g g' h
    simp only [enter] at h
    split at h
    · simp at h
    · rename_i imports g₁ hf
      simp only [Progress.mk.injEq, and_true] at h
      exact ⟨imports, g₁, walked_of_followAll ih hf, h.symm⟩

/-- The walk from a location that was not claimed before, when it ends without an error. -/
theorem walked_of_visit {loc : Location} {g g' : Graph} (hf : g.isVisited loc.id = false)
    (h : r.visit loc g = ⟨g', none⟩) :
    ∃ text imports g₁, r.load loc = .ok text ∧
      Walked r loc (SourceModule.parse loc.id text).imports (g.begin (.parse loc.id text))
        imports g₁ ∧
      g' = g₁.push (moduleAt loc text imports) := by
  simp only [visit, visitWith, hf, Bool.false_eq_true, ↓reduceIte] at h
  split at h
  · rename_i text ht
    obtain ⟨imports, g₁, hw, hg⟩ := walked_of_enter _ _ _ _ _ h
    exact ⟨text, imports, g₁, ht, hw, hg⟩
  · simp at h

/-! ## What every walk keeps -/

/-- What was claimed stays claimed. -/
theorem Walked.isVisited {loc : Location} {is is' : List ImportReference} {g g' : Graph}
    (h : r.Walked loc is g is' g') {key : String} (hv : g.isVisited key = true) :
    g'.isVisited key = true := by
  induction h with
  | done => exact hv
  | missing _ left _ ih =>
    obtain ⟨-, d, rfl⟩ := unresolved_ok left
    exact ih hv
  | seen _ _ _ ih => exact ih hv
  | entered _ _ _ _ _ ihb ih => exact ih (ihb (by simp [hv]))
  | failed _ _ _ left _ ih =>
    obtain ⟨-, d, rfl⟩ := unresolved_ok left
    exact ih (by simp [hv])

end Resolver

end ContractBuild
