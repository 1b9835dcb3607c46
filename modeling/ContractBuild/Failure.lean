/-!
# Failures with causes

A `Failure` is a message and the messages of what caused it, the nearest cause first.
-/

namespace ContractBuild

/-- A message and what caused it. -/
structure Failure where
  headline : String
  causes : List String := []
  deriving Repr, DecidableEq, Inhabited

namespace Failure

/-- The message with all its causes. -/
def full (f : Failure) : String := ": ".intercalate (f.headline :: f.causes)

/-- The failure as the cause of another one. -/
def within (f : Failure) (headline : String) : Failure := ⟨headline, f.headline :: f.causes⟩

end Failure

end ContractBuild
