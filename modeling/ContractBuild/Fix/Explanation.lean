import ContractBuild.Fix.Rule

/-!
# Explanations of rules

For each rule: what it does and why it is safe, what calls for it, and what can be done by hand
instead.
-/

namespace ContractBuild

/-- Lines as one text. -/
def paragraph (lines : List String) : String := "\n".intercalate lines

namespace FixRule

/-- What a rule does. -/
def description : FixRule → String
  | stripOverride => paragraph [
      "Removes `override` and `override(A, B)` qualifiers from function",
      "and modifier headers.",
      "",
      "Flattening can merge two copies of a base contract, or pull in a base that",
      "no longer declares the overridden function. The compiler then rejects every",
      "`override` that has nothing to override.",
      "",
      "Example transformation:",
      "    function totalSupply() public view override returns (uint256)",
      "becomes:",
      "    function totalSupply() public view returns (uint256)"]
  | markInternalVirtual => paragraph [
      "Inserts `virtual` after `internal` on function headers that lack it.",
      "",
      "Derived contracts in upgradeable libraries often override internal hooks of",
      "an older base release that never declared them `virtual`.",
      "",
      "Example transformation:",
      "    function _beforeTransfer(address from) internal \x7b",
      "becomes:",
      "    function _beforeTransfer(address from) internal virtual \x7b"]
  | stripOnlyInitializing => paragraph [
      "Removes uses of the `onlyInitializing` modifier from function headers.",
      "The modifier definition itself is kept.",
      "",
      "Mixed releases of initializer libraries disagree on where the modifier is",
      "declared, which surfaces as an undeclared identifier in the flattened unit."]
  | relaxExactPragma => paragraph [
      "Turns exact version pragmas into caret ranges.",
      "",
      "Example transformation:",
      "    pragma solidity 0.8.19;",
      "becomes:",
      "    pragma solidity ^0.8.19;"]
  | dedupeLicense => paragraph [
      "Keeps the first `SPDX-License-Identifier` comment and removes the rest.",
      "",
      "Sources concatenated by hand (or by other flatteners) carry one license",
      "line per original file, which the compiler rejects."]

/-- Why a rule does no harm. -/
def safetyRationale : FixRule → String
  | stripOverride => paragraph [
      "Removing `override` never changes generated code. If a removed",
      "qualifier was actually required the next attempt reports \"Overriding",
      "function is missing override specifier\" and the attempt fails visibly."]
  | markInternalVirtual => paragraph [
      "`virtual` only widens what derived contracts may do. It has no",
      "effect on the bytecode of a contract that is not overridden."]
  | stripOnlyInitializing => paragraph [
      "The guard only restricts calls during proxy initialization. Dropping it",
      "loosens an access check, so the change is recorded in the attempt log and",
      "the fix diff for review."]
  | relaxExactPragma => paragraph [
      "A caret range still excludes the next breaking minor release, so the",
      "source is compiled by a compiler with the same language rules."]
  | dedupeLicense => paragraph [
      "License comments are metadata only and never affect compilation output."]

/-- What can be done by hand instead of a rule. -/
def remediation : FixRule → String
  | stripOverride => paragraph [
      "Check the inheritance chain of the reported contract. Either the base",
      "function was renamed or removed, or two copies of the same base were",
      "imported from different paths. Import each base from a single path, or",
      "drop the `override` qualifier by hand."]
  | markInternalVirtual => paragraph [
      "Upgrade the base library to a release that declares the hook",
      "`virtual`, or vendor the base contract and add `virtual` to the",
      "function named in the diagnostic."]
  | stripOnlyInitializing => paragraph [
      "Pin every initializer-library import to the same release so the",
      "modifier is declared exactly once. Review the fix diff before deploying:",
      "the guard is removed, not relocated."]
  | relaxExactPragma => paragraph [
      "Install the exact compiler release named in the pragma, or change the",
      "pragma to a range your toolchain provides."]
  | dedupeLicense => paragraph [
      "Keep one `// SPDX-License-Identifier:` line per compiled unit. When",
      "combining files by hand, merge the identifiers into one SPDX expression."]

end FixRule

/-- What can be done by hand instead of the rule with an id. -/
def remediationFor (id : String) : String :=
  match FixRule.all.find? (·.id == id) with
  | some rule => rule.remediation
  | none => "No manual guidance recorded for this rule."

/-- What a class of failures means. -/
def FailureClass.meaning : FailureClass → String
  | invalidOverride => "A function or modifier is marked `override` but overrides nothing."
  | nonVirtualBase => "A derived contract overrides a base function that is not `virtual`."
  | initializerGuard => "The `onlyInitializing` modifier is missing or declared inconsistently."
  | pragmaMismatch => "The source pins a compiler release other than the one in use."
  | duplicateLicense => "The unit carries more than one SPDX license line."
  | aggressive => "No rule matched; the override, virtual and initializer rules are swept once."
  | unclassified => "No rule matched and the aggressive pass is disabled or spent."

namespace FixRule

/-- A heading with a line below it. -/
def heading (title : String) : List String := [title, "".pushn '-' 80]

/-- The explanation of a rule. -/
def explanation (r : FixRule) : String :=
  let bar := "".pushn '=' 80
  let lines :=
    [bar, "FIX: " ++ r.title, bar, "",
     "Rule:       " ++ r.id,
     "Class:      " ++ r.failureClass.name,
     "Aggressive: " ++ (if r.inSweep then "yes" else "no"), ""] ++
    heading "DESCRIPTION" ++ [r.description, ""] ++
    heading "TRIGGERING DIAGNOSTICS" ++
    [r.failureClass.meaning, "Selected when an error diagnostic contains:", ""] ++
    r.patterns.map ("  - " ++ ·) ++ [""] ++
    heading "SAFETY RATIONALE" ++ [r.safetyRationale, ""] ++
    heading "REMEDIATION GUIDANCE" ++ [r.remediation]
  String.join (lines.map (· ++ "\n"))

end FixRule

end ContractBuild
