import ContractBuild.Json.Form

/-!
# Classes of compiler failures

A failed compilation is sorted into classes, and each class has the rules that may repair it.
-/

namespace ContractBuild

open Json

/-- A class of failures. -/
inductive FailureClass where
  /-- `override` on a function that overrides nothing. -/
  | invalidOverride
  /-- A function is overridden that was never marked `virtual`. -/
  | nonVirtualBase
  /-- A modifier for initializers is not available in the unit. -/
  | initializerGuard
  /-- A pragma for one exact version is rejected. -/
  | pragmaMismatch
  /-- More than one licence line in a unit. -/
  | duplicateLicense
  /-- The broad sweep for when nothing specific applies. -/
  | aggressive
  /-- Nothing applies. -/
  | unclassified
  deriving Repr, DecidableEq, Inhabited

namespace FailureClass

/-- All classes. -/
def all : List FailureClass :=
  [invalidOverride, nonVirtualBase, initializerGuard, pragmaMismatch, duplicateLicense, aggressive,
   unclassified]

/-- The name of a class in reports. -/
def name : FailureClass → String
  | invalidOverride => "invalid_override"
  | nonVirtualBase => "non_virtual_base"
  | initializerGuard => "initializer_guard"
  | pragmaMismatch => "pragma_mismatch"
  | duplicateLicense => "duplicate_license"
  | aggressive => "aggressive"
  | unclassified => "unclassified"

instance : JsonForm FailureClass where
  toJson c := .str c.name
  shape := Node.choice (all.map fun c => (c.name, c))

end FailureClass

/-- The record of a rule that changed a text. -/
structure AppliedChange where
  ruleId : String
  /-- The class the rule was applied for. -/
  forClass : FailureClass
  description : String
  /-- The number of places that were changed. -/
  occurrences : UInt64
  deriving Repr, DecidableEq

instance : JsonForm AppliedChange where
  toJson c := .obj
    [("rule_id", .str c.ruleId), ("class", toJson c.forClass),
     ("description", .str c.description), ("occurrences", toJson c.occurrences)]
  shape n := do
    let f ← n.record "AppliedChange"
      [required "rule_id" Node.string, required "class" (shapeOf FailureClass),
       required "description" Node.string, required "occurrences" (shapeOf UInt64)]
    return {
      ruleId := ← f.get "rule_id" Node.string
      forClass := ← f.get "class" (shapeOf FailureClass)
      description := ← f.get "description" Node.string
      occurrences := ← f.get "occurrences" (shapeOf UInt64) }

end ContractBuild
