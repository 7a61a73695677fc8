import MissionIndex.Header.Info
import MissionIndex.Ordered
import MissionIndex.Range
import MissionIndex.Text.Lower

/-!
# Function records

A root file declares functions under names that do not depend on spelling. Its table holds one
record for each lower-case name, in the order in which the names were first declared.
-/

namespace MissionIndex

/-- A function declared in a root file. -/
structure FunctionRecord where
  /-- The name by which scripts call the function. -/
  name : String
  /-- The path of its script. -/
  script : String
  /-- The root file that declares it. -/
  root : String := ""
  declaration : Option Location := none
  /-- What the header of the script says, once that has been read. -/
  info : Option Header.Info := none
deriving DecidableEq, Repr

namespace FunctionRecord

def key (r : FunctionRecord) : String := Text.lower r.name

end FunctionRecord

/-- The functions of one root file by lower-case name. -/
abbrev FunctionTable := List (String × FunctionRecord)

/-- The tables of the root files by path. -/
abbrev FunctionTables := List (String × FunctionTable)

namespace FunctionTables

def find? (tables : FunctionTables) (name : String) : Option FunctionRecord :=
  tables.findSome? fun (_, table) ↦ table.lookup (Text.lower name)

end FunctionTables

end MissionIndex
