import ContractBuild.Disk.Tree
import ContractBuild.Text.CharClass
import ContractBuild.Text.Utf8
import ContractBuild.Time.Instant
import ContractBuild.Time.Span

/-!
# Programs that can be run

A `Toolbox` runs programs in a working directory and reads the clock. Its state is of any type.
-/

namespace ContractBuild

open Text

/-- A program to be run, with its arguments and its input. -/
structure ProgramCall where
  program : String
  args : List String
  stdin : String := ""
  deriving Repr, DecidableEq

/-- How a program ended, and what it wrote. -/
structure ProgramResult where
  exitCode : Nat
  stdout : ByteArray
  stderr : ByteArray

namespace ProgramResult

/-- Whether the program ended well. -/
def isSuccess (r : ProgramResult) : Bool := r.exitCode == 0

/-- How the program ended, in words. -/
def status (r : ProgramResult) : String := s!"exit status: {r.exitCode}"

/-- What was written, as text without the space around it. -/
def trimmed (bytes : ByteArray) : String := String.ofList (trim (lossy bytes).toList)

end ProgramResult

/-- Programs and clocks. -/
structure Toolbox (τ : Type) where
  /-- Runs a program in the working directory of a disk, which it may change. -/
  start : ProgramCall → Disk → τ → Except OsError (ProgramResult × Disk) × τ
  /-- The time since some fixed moment. -/
  clock : τ → Span × τ
  /-- Date and time. -/
  date : τ → Instant × τ

end ContractBuild
