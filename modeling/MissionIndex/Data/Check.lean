import MissionIndex.Data.Value

/-!
# Checking plain data

Reading plain data as values of fixed types. What cannot be read is a *fault*: what is wrong with a
value, and the way to it through lists and mappings. All faults are reported, in the order of the
parts of a value, so reading two parts gives both values or the faults of both.
-/

namespace MissionIndex.Data

/-! ## Faults -/

/-- What a value is not. -/
inductive FaultKind where
  | notText
  | notList
  | notMapping
  /-- of a type that cannot be a truth value -/
  | notBool
  /-- of a type that can be a truth value, and none of those -/
  | unreadableBool
  | notNumber
  | unreadableNumber
  | negative
  | missing
  /-- A record was expected. -/
  | notRecord
deriving DecidableEq, Repr

/-- One step on the way to a value. -/
inductive Step where
  | name (s : String)
  | index (n : Int)
deriving DecidableEq, Repr

/-- A value at fault and the way to it. -/
structure Fault where
  path : List Step
  kind : FaultKind
deriving DecidableEq, Repr

def Fault.under (step : Step) (f : Fault) : Fault := { f with path := step :: f.path }

/-- The outcome of reading a value: the value, or the faults found in it. -/
abbrev Checked (α : Type) := Except (List Fault) α

/-- A single fault at the value itself. -/
def fail {α : Type} (kind : FaultKind) : Checked α := .error [⟨[], kind⟩]

def Checked.faults {α : Type} : Checked α → List Fault
  | .ok _ => []
  | .error fs => fs

/-- The outcome seen from one step further out. -/
def Checked.under {α : Type} (step : Step) : Checked α → Checked α
  | .ok a => .ok a
  | .error fs => .error (fs.map (Fault.under step))

/-- Two outcomes together: both values, or the faults of both in order. -/
def Checked.both {α β : Type} : Checked α → Checked β → Checked (α × β)
  | .ok a, .ok b => .ok (a, b)
  | x, y => .error (x.faults ++ y.faults)

/-! ## Reading -/

def checkText : Data → Checked String
  | .text s => .ok s
  | _ => fail .notText

end MissionIndex.Data
