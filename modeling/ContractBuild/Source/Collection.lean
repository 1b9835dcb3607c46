import ContractBuild.Source.Resolver

/-!
# Collecting source units

A compiler that cannot ask for files is given all of them. The units are named the way the compiler
names them: the root by its file name, a relative import by its path from the importing unit, and
any other import by what is written. `UnitLookup.find` gives the text of a unit, and
`UnitLookup.collect` the closure of the root under imports.
-/

namespace ContractBuild

open Solidity

/-- Looks units up with the root module for a base. -/
structure UnitLookup where
  resolver : Resolver
  base : Location

/-- Why there is no text for a unit. -/
inductive LookupError where
  | notFound (name : String)
  | unreadable (name : String) (cause : Failure)
  deriving Repr, DecidableEq

/-- The wording of a failed look-up. -/
def LookupError.message : LookupError → String
  | notFound name => "File not found: " ++ name
  | unreadable name cause => name ++ ": " ++ cause.full

/-- The unit that an import in the unit `importer` means. -/
def unitName (importer raw : String) : String :=
  if startsRelative raw then
    ((Path.mk importer).directory.join ⟨raw⟩).normalize.text
  else raw

/-- Units by name, and which of them belong to a package: those reached by an import that is not
relative, or relatively from another one. -/
structure Collected where
  sources : Dict String := ∅
  packages : KeySet := ∅
  deriving Repr, DecidableEq

/-- Whether a unit belongs to a package. -/
def Collected.isPackage (c : Collected) (name : String) : Bool := c.packages.contains name

/-- A unit that is still to be collected. -/
structure PendingUnit where
  name : String
  package : Bool
  deriving Repr, DecidableEq

/-- What is collected, and what is still to be. -/
structure Worklist where
  pending : List PendingUnit
  collected : Collected := {}
  deriving Repr, DecidableEq

namespace UnitLookup

/-- The look-up for a root that a caller names. -/
def ofRoot (r : Resolver) (root : Path) : UnitLookup := ⟨r, r.rootLocation root⟩

/-- The name of the root unit: its file name. -/
def rootUnit (l : UnitLookup) : String :=
  match l.base with
  | .file p => p.fileName?.getD p.text
  | .remote ref => ref.id

/-- The text of a unit. -/
def find (l : UnitLookup) (name : String) : Except LookupError String :=
  let loc := if name == l.rootUnit then some l.base else l.resolver.locate l.base name
  match loc with
  | none => .error (.notFound name)
  | some loc => (l.resolver.load loc).mapError (.unreadable name)

/-- The imports of a unit that are not collected yet. -/
def nextUnits (c : Collected) (u : PendingUnit) (text : String) : List PendingUnit :=
  ((importPaths text).map fun raw =>
    ⟨unitName u.name raw, u.package || ImportKind.of raw != .relative⟩).filter
    fun n => !c.sources.contains n.name

/-- Adds a unit to what is collected. -/
def add (c : Collected) (u : PendingUnit) (text : String) : Collected where
  sources := c.sources.insert u.name text
  packages := if u.package then c.packages.add u.name else c.packages

/-- Takes one unit off the list. A unit without a text is left to the compiler unless the resolver
is strict; the root has to have one. -/
def step (l : UnitLookup) (u : PendingUnit) (rest : List PendingUnit) (c : Collected) :
    Except ResolutionError Worklist :=
  if c.sources.contains u.name then .ok ⟨rest, c⟩
  else
    match l.find u.name with
    | .ok text => .ok ⟨rest ++ nextUnits c u text, add c u text⟩
    | .error e =>
      if u.name == l.rootUnit then .error (.read u.name ⟨e.message, []⟩)
      else if l.resolver.settings.strict then .error (.unresolved l.rootUnit u.name)
      else .ok ⟨rest, c⟩

/-- Takes units off the list until it is empty, at most `bound` of them. -/
def run (l : UnitLookup) : Nat → Worklist → Except ResolutionError Collected
  | _, ⟨[], c⟩ => .ok c
  | 0, ⟨u :: _, _⟩ => .error (.endless u.name)
  | bound + 1, ⟨u :: rest, c⟩ => do l.run bound (← l.step u rest c)

/-- The list at the start: the root alone. -/
def start (l : UnitLookup) : Worklist := ⟨[⟨l.rootUnit, false⟩], {}⟩

/-- More steps than a collection that ends can take: there are no more units than pairs of a file
and a number of parent steps, and no unit has more imports than characters. -/
def bound (l : UnitLookup) : Nat :=
  Nat.pow (l.resolver.view.size + l.resolver.remote.size + l.rootUnit.length + 2) 4

/-- The closure of the root under imports. -/
def collect (l : UnitLookup) : Except ResolutionError Collected := l.run l.bound l.start

end UnitLookup

end ContractBuild
