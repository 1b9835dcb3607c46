import ContractBuild.Compile.Diagnostic
import ContractBuild.Diff.Unified
import ContractBuild.Fix.FailureClass
import ContractBuild.Fix.Transform

/-!
# Rules that repair a text

A rule serves one class of failures. `classify` finds the classes of some diagnostics, and
`fixClasses` applies all rules of some classes and records those that changed the text.
-/

namespace ContractBuild

open ContractBuild.Fix Text

/-- A rule. -/
inductive FixRule where
  | stripOverride
  | markInternalVirtual
  | stripOnlyInitializing
  | relaxExactPragma
  | dedupeLicense
  deriving Repr, DecidableEq, Inhabited

namespace FixRule

/-- All rules, in the order in which they are tried. -/
def all : List FixRule :=
  [stripOverride, markInternalVirtual, stripOnlyInitializing, relaxExactPragma, dedupeLicense]

/-- The name of a rule. -/
def id : FixRule → String
  | stripOverride => "strip-override"
  | markInternalVirtual => "mark-internal-virtual"
  | stripOnlyInitializing => "strip-only-initializing"
  | relaxExactPragma => "relax-exact-pragma"
  | dedupeLicense => "dedupe-spdx"

/-- The class of failures a rule serves. -/
def failureClass : FixRule → FailureClass
  | stripOverride => .invalidOverride
  | markInternalVirtual => .nonVirtualBase
  | stripOnlyInitializing => .initializerGuard
  | relaxExactPragma => .pragmaMismatch
  | dedupeLicense => .duplicateLicense

/-- What a rule does, in a few words. -/
def title : FixRule → String
  | stripOverride => "Strip invalid override qualifiers"
  | markInternalVirtual => "Mark internal functions virtual"
  | stripOnlyInitializing => "Remove onlyInitializing guards"
  | relaxExactPragma => "Relax exact compiler pragmas"
  | dedupeLicense => "Keep a single SPDX line"

/-- The texts in a diagnostic that call for a rule. -/
def patterns : FixRule → List String
  | stripOverride => ["does not override"]
  | markInternalVirtual => ["non-virtual function", "marked as \"virtual\""]
  | stripOnlyInitializing => ["onlyInitializing"]
  | relaxExactPragma => ["requires different compiler version"]
  | dedupeLicense => ["Multiple SPDX license identifiers"]

/-- The transformation of a rule. -/
def transform : FixRule → List Char → Transformed
  | stripOverride => Fix.stripOverride
  | markInternalVirtual => Fix.markInternalVirtual
  | stripOnlyInitializing => Fix.stripOnlyInitializing
  | relaxExactPragma => Fix.relaxExactPragma
  | dedupeLicense => Fix.dedupeLicense

/-- Whether a rule takes part in the broad sweep. -/
def inSweep (r : FixRule) : Bool :=
  match r.failureClass with
  | .invalidOverride | .nonVirtualBase | .initializerGuard => true
  | _ => false

/-- The rules that serve a class. -/
def servingClass : FailureClass → List FixRule
  | .aggressive => all.filter (·.inSweep)
  | c => all.filter (·.failureClass == c)

/-- The rule with a name, in any case and with underscores for hyphens. -/
def find? (query : String) : Option FixRule :=
  let name := (asciiLower (String.ofList (trim query.toList))).map
    fun c => if c == '_' then '-' else c
  all.find? (·.id == name)

/-- Whether an error among some diagnostics calls for a rule. -/
def isCalledFor (r : FixRule) (diagnostics : List CompilerDiagnostic) : Bool :=
  diagnostics.any fun d => d.isError && r.patterns.any fun p =>
    contains d.message.toList p.toList || contains d.fullText.toList p.toList

end FixRule

/-- The classes of some diagnostics, in the order of the rules. -/
def classify (diagnostics : List CompilerDiagnostic) : List FailureClass :=
  ((FixRule.all.filter (·.isCalledFor diagnostics)).map (·.failureClass)).eraseDups

/-- A text after repair, and the record of what was changed. -/
structure FixOutcome where
  text : String
  changes : List AppliedChange := []
  deriving Repr, DecidableEq

namespace FixOutcome

/-- Whether a rule changed the text. -/
def isChanged (o : FixOutcome) : Bool := !o.changes.isEmpty

/-- The names of the rules that changed the text. -/
def ruleIds (o : FixOutcome) : List String := o.changes.map (·.ruleId)

/-- The diff from the text before. -/
def patch (o : FixOutcome) (before : String) : String := Diff.unified before o.text

/-- Applies a rule for a class. A rule that changes nothing is not recorded. -/
def apply (forClass : FailureClass) (o : FixOutcome) (rule : FixRule) : FixOutcome :=
  let result := rule.transform o.text.toList
  let text := String.ofList result.text
  if result.occurrences == 0 || text == o.text then o
  else
    { text
      changes := o.changes ++
        [{ ruleId := rule.id, forClass, description := rule.title
           occurrences := result.occurrences.toUInt64 }] }

/-- Applies all rules that serve a class. -/
def applyClass (o : FixOutcome) (c : FailureClass) : FixOutcome :=
  (FixRule.servingClass c).foldl (apply c) o

end FixOutcome

/-- Applies all rules that serve a class. -/
def fixSource (text : String) (c : FailureClass) : FixOutcome :=
  FixOutcome.applyClass { text } c

/-- Applies all rules that serve some classes, one class after the other. -/
def fixClasses (text : String) (classes : List FailureClass) : FixOutcome :=
  classes.foldl FixOutcome.applyClass { text }

end ContractBuild
