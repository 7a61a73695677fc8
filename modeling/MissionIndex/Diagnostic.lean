import MissionIndex.Range

/-!
# Diagnostics

Remarks on a file, as an editor shows them.
-/

namespace MissionIndex

/-- How much a remark matters. -/
inductive Severity where
  | error
  | warning
  | information
  | hint
deriving DecidableEq, Repr

/-- A remark on a range of a file. -/
structure Diagnostic where
  range : Range
  message : String
  severity : Option Severity := none
deriving DecidableEq, Repr

namespace Diagnostic

/-- The name under which this program's remarks appear. -/
def source : String := "ext-index"

/-- A remark that something is wrong. -/
def error (range : Range) (message : String) : Diagnostic :=
  { range, message, severity := some .error }

/-- Whether a remark says that something is wrong. -/
def isError (d : Diagnostic) : Bool := d.severity == some .error

end Diagnostic

end MissionIndex
