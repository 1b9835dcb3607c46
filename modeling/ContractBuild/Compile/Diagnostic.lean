import ContractBuild.Json.Form

/-!
# What a compiler reports
-/

namespace ContractBuild

open Json

/-- How serious a message is. -/
inductive Severity where
  | error
  | warning
  | info
  deriving Repr, DecidableEq, Inhabited

namespace Severity

/-- The name of a severity. -/
def name : Severity → String
  | error => "error"
  | warning => "warning"
  | info => "info"

instance : JsonForm Severity where
  toJson s := .str s.name
  shape := Node.choice ([error, warning, info].map fun s => (s.name, s))

end Severity

/-- A message of a compiler. -/
structure CompilerDiagnostic where
  severity : Severity
  message : String
  /-- The message with the place in the source it is about. -/
  formattedMessage : Option String := none
  /-- The compiler's own sort of the message. -/
  kind : Option String := none
  deriving Repr, DecidableEq, Inhabited

namespace CompilerDiagnostic

/-- An error with nothing but a message. -/
def ofError (message : String) : CompilerDiagnostic := { severity := .error, message }

/-- Whether the message is an error. -/
def isError (d : CompilerDiagnostic) : Bool := d.severity == .error

/-- The fullest text of the message. -/
def fullText (d : CompilerDiagnostic) : String := d.formattedMessage.getD d.message

instance : JsonForm CompilerDiagnostic where
  toJson d := .object
    [("severity", some (toJson d.severity)), ("message", some (.str d.message)),
     ("formatted_message", d.formattedMessage.map .str), ("kind", d.kind.map .str)]
  shape n := do
    let f ← n.record "CompilerDiagnostic"
      [required "severity" (shapeOf Severity), required "message" Node.string,
       optional "formatted_message" (Node.nullable Node.string),
       optional "kind" (Node.nullable Node.string)]
    return {
      severity := ← f.get "severity" (shapeOf Severity)
      message := ← f.get "message" Node.string
      formattedMessage := ← f.get? "formatted_message" Node.string
      kind := ← f.get? "kind" Node.string }

end CompilerDiagnostic

end ContractBuild
