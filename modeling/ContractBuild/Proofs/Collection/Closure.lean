import ContractBuild.Proofs.Collection.Worklist
import Mathlib.Logic.Relation

/-!
# What is collected is closed under imports

- **Imports of units** (`Collected.Imports`, `Collected.LeadsTo`): what leads to a unit among those
  that are collected.
- **Chains** (`leadsTo_of_reaches`): every name that is reached is reached along collected units.
- **Package units** (`packages_collected`): they are collected, and the root is none of them.

Main statement: `collected_closed`.
-/

namespace ContractBuild

open Solidity

/-! ## Imports of units -/

namespace Collected

/-- `c.Imports name raw next`: the collected unit `name` imports `next`, and writes `raw` for it. -/
def Imports (c : Collected) (name raw next : String) : Prop :=
  ∃ text, c.sources.get? name = some text ∧ raw ∈ importPaths text ∧ unitName name raw = next

/-- Imports of collected units lead from one unit to another. -/
def LeadsTo (c : Collected) : String → String → Prop :=
  Relation.ReflTransGen fun name next => ∃ raw, c.Imports name raw next

end Collected

namespace UnitLookup

variable {l : UnitLookup} {n : Nat} {c : Collected}

/-! ## Chains -/

/-- A name that is reached is reached along collected units. -/
theorem leadsTo_of_reaches (hc : l.run n l.start = .ok c) {name : String} (h : l.Reaches name) :
    c.LeadsTo l.rootUnit name := by
  induction h with
  | root => exact .refl
  | @step name text raw before found imported ih =>
    exact ih.tail ⟨raw, text, (get?_of_run hc name text).mpr ⟨before, found⟩, imported, rfl⟩

/-- A unit other than the root is imported by one that imports lead to from the root. -/
theorem exists_leadsTo_imports (hc : l.run n l.start = .ok c) {u text : String}
    (hu : c.sources.get? u = some text) (hne : u ≠ l.rootUnit) :
    ∃ name raw, c.LeadsTo l.rootUnit name ∧ c.Imports name raw u := by
  obtain ⟨hreach, -⟩ := (get?_of_run hc u text).mp hu
  cases hreach with
  | root => exact absurd rfl hne
  | @step name text raw before found imported =>
    exact ⟨name, raw, leadsTo_of_reaches hc before, text,
      (get?_of_run hc name text).mpr ⟨before, found⟩, imported, rfl⟩

/-- A unit other than the root is imported by a collected one. -/
theorem exists_imports (hc : l.run n l.start = .ok c) {u text : String}
    (hu : c.sources.get? u = some text) (hne : u ≠ l.rootUnit) :
    ∃ name raw, c.Imports name raw u := by
  obtain ⟨name, raw, -, himports⟩ := exists_leadsTo_imports hc hu hne
  exact ⟨name, raw, himports⟩

/-! ## Package units -/

/-- The root is still to be collected, or package units are collected ones other than the root. -/
def PackagesApart (l : UnitLookup) (w : Worklist) : Prop :=
  w = l.start ∨ w.collected.sources.contains l.rootUnit = true ∧
    ∀ u, w.collected.packages.contains u = true →
      w.collected.sources.contains u = true ∧ u ≠ l.rootUnit

theorem packagesApart_step {u : PendingUnit} {rest : List PendingUnit} {w : Worklist}
    (h : l.PackagesApart ⟨u :: rest, c⟩) (hs : l.step u rest c = .ok w) : l.PackagesApart w := by
  right
  rcases h with hstart | ⟨hroot, hpackages⟩
  · -- the root is found, and put in without the mark of a package
    obtain ⟨⟨rfl, rfl⟩, rfl⟩ : (u = ⟨l.rootUnit, false⟩ ∧ rest = []) ∧ c = {} := by
      simpa [start] using hstart
    rcases step_cases hs with ⟨hc, -⟩ | ⟨-, text, -, rfl⟩ | ⟨hne, -, -⟩
    · cases hc
    · exact ⟨by rw [contains_add, beq_self_eq_true, Bool.true_or], fun v hv => by cases hv⟩
    · exact absurd rfl hne
  · rcases step_cases hs with ⟨-, rfl⟩ | ⟨hfresh, text, -, rfl⟩ | ⟨-, -, rfl⟩
    · exact ⟨hroot, hpackages⟩
    · refine ⟨by rw [contains_add, hroot, Bool.or_true], fun v hv => ?_⟩
      have hold (h : c.packages.contains v = true) :
          (add c u text).sources.contains v = true ∧ v ≠ l.rootUnit := by
        obtain ⟨hcontains, hne⟩ := hpackages v h
        exact ⟨by rw [contains_add, hcontains, Bool.or_true], hne⟩
      by_cases hp : u.package = true
      · rw [add, if_pos hp, KeySet.contains_add, Bool.or_eq_true, beq_iff_eq] at hv
        rcases hv with rfl | hv
        · refine ⟨by rw [contains_add, beq_self_eq_true, Bool.true_or], ?_⟩
          rintro he
          rw [he, hroot] at hfresh
          cases hfresh
        · exact hold hv
      · rw [add, if_neg hp] at hv
        exact hold hv
    · exact ⟨hroot, hpackages⟩

/-- Package units are collected, and the root is none of them. -/
theorem packages_collected (hc : l.run n l.start = .ok c) {u : String}
    (hu : c.isPackage u = true) : c.sources.contains u = true ∧ u ≠ l.rootUnit := by
  have hend : l.PackagesApart ⟨[], c⟩ :=
    run_ok (motive := l.PackagesApart) (fun _ _ _ _ h hs => packagesApart_step h hs) (.inl rfl) hc
  rcases hend with hstart | ⟨-, hpackages⟩
  · cases hstart
  · exact hpackages u hu

/-- **What is collected is closed under imports,** and nothing else is collected. The root is
collected; a unit has the text that is found for it; what it imports is collected, or left out,
which happens only if the resolver is lenient; every other unit is imported by one that a chain of
imports leads to from the root; and package units are collected units other than the root. This
does not depend on the number of steps that are allowed. -/
theorem collected_closed (l : UnitLookup) (n : Nat) (c : Collected)
    (h : l.run n l.start = .ok c) :
    c.sources.contains l.rootUnit = true ∧
    (∀ u text, c.sources.get? u = some text → l.find u = .ok text ∧
      ∀ raw ∈ importPaths text, c.sources.contains (unitName u raw) = true ∨
        l.resolver.settings.strict = false ∧ ∃ e, l.find (unitName u raw) = .error e) ∧
    (∀ u, c.sources.contains u = true → u ≠ l.rootUnit →
      ∃ v raw, c.LeadsTo l.rootUnit v ∧ c.Imports v raw u) ∧
    ∀ u, c.isPackage u = true → c.sources.contains u = true ∧ u ≠ l.rootUnit := by
  refine ⟨contains_rootUnit_of_run h, fun u text hu => ?_, fun u hu hne => ?_,
    fun u hu => packages_collected h hu⟩
  · obtain ⟨-, hfind⟩ := (get?_of_run h u text).mp hu
    refine ⟨hfind, fun raw hraw => ?_⟩
    rcases (sound_of_run h).closed u text hu raw hraw with hc | ⟨v, hv, -⟩ | hleft
    · exact .inl hc
    · cases hv
    · exact .inr hleft
  · rw [Dict.contains_eq_isSome_get?] at hu
    obtain ⟨text, htext⟩ := Option.isSome_iff_exists.mp hu
    exact exists_leadsTo_imports h htext hne

/-- A root that imports itself, a file that is not there and a file that imports it again. -/
def circularFiles : MemoryFiles := .ofList
  [("M", "import './M'; import './Gone'; import 'A';"), ("A", "import './M'; import './Gone';")]

/-- Two units are collected. The missing one is asked for twice, and the root from a package. -/
theorem collected_closed_circular :
    let l := ofRoot ⟨circularFiles.view, .disabled, {}⟩ ⟨"M"⟩
    let c : Collected := ⟨.ofList [("M", "import './M'; import './Gone'; import 'A';"),
      ("A", "import './M'; import './Gone';")], .ofList [("A", ())]⟩
    l.collect = .ok c ∧ c.sources.contains "M" = true ∧
    (∀ u text, c.sources.get? u = some text → l.find u = .ok text ∧
      ∀ raw ∈ importPaths text, c.sources.contains (unitName u raw) = true ∨
        l.resolver.settings.strict = false ∧ ∃ e, l.find (unitName u raw) = .error e) ∧
    (∀ u, c.sources.contains u = true → u ≠ "M" → ∃ v raw, c.LeadsTo "M" v ∧ c.Imports v raw u) ∧
    ∀ u, c.isPackage u = true → c.sources.contains u = true ∧ u ≠ "M" := by
  intro l c
  have hc : l.collect = .ok c := by decide +kernel
  exact ⟨hc, collected_closed l l.bound c hc⟩

end UnitLookup

end ContractBuild
