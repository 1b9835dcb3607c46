import ContractBuild.Json.Value

/-!
# Spans of time
-/

namespace ContractBuild

/-- A span of time. -/
structure Span where
  nanoseconds : Nat
  deriving Repr, DecidableEq, Inhabited

namespace Span

/-- A number of seconds. -/
def ofSeconds (n : Nat) : Span := ⟨n * 1000000000⟩

/-- A number of milliseconds. -/
def ofMilliseconds (n : Nat) : Span := ⟨n * 1000000⟩

/-- Whole seconds. -/
def wholeSeconds (s : Span) : Nat := s.nanoseconds / 1000000000

/-- Whole milliseconds. -/
def milliseconds (s : Span) : Nat := s.nanoseconds / 1000000

/-- The span from one moment to a later one; no time if the other one is not later. -/
def between (start later : Span) : Span := ⟨later.nanoseconds - start.nanoseconds⟩

/-- Seconds as a binary64 number: the whole seconds and the fraction are rounded each for itself,
and then their sum. -/
def seconds? (s : Span) : Option Binary64 := do
  let whole ← Binary64.ofNat? s.wholeSeconds
  let rest ← Binary64.round false (s.nanoseconds % 1000000000) 1000000000
  whole.addMagnitudes rest

/-- Seconds in the fewest digits. -/
def secondsText (s : Span) : String := String.ofList ((s.seconds?.map (·.plainChars)).getD [])

end Span

end ContractBuild
