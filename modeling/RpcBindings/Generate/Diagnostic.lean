/-!
# Diagnostics

A diagnostic is a remark on a generation run with its severity and, if there is one, the
schema entity it is about.
-/
namespace RpcBindings.Generate

/-- How much a diagnostic matters. -/
inductive Severity where
  /-- Something was left out. -/
  | warning
  /-- For those who ask. -/
  | info
deriving DecidableEq

/-- The name of a severity. -/
def Severity.text : Severity → String
  | .warning => "warning"
  | .info => "info"

/-- A remark on a generation run. -/
structure Diagnostic where
  /-- How much it matters. -/
  severity : Severity
  /-- What it says. -/
  message : String
  /-- The qualified name of what it is about. -/
  location : Option String := none
deriving DecidableEq

namespace Diagnostic

/-- Whether the diagnostic is a warning. -/
def isWarning (d : Diagnostic) : Bool := d.severity == .warning

/-- The message with its location, without the severity. -/
def body (d : Diagnostic) : String :=
  d.message ++ (match d.location with
    | some location => " (at " ++ location ++ ")"
    | none => "")

/-- The diagnostic as one line. -/
def text (d : Diagnostic) : String :=
  d.severity.text ++ ": " ++ d.body

/-- The diagnostic about another entity. -/
def about (d : Diagnostic) (location : String) : Diagnostic :=
  { d with location := some location }

end Diagnostic

end RpcBindings.Generate
