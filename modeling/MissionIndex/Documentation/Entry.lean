import MissionIndex.Ordered
import MissionIndex.Text.Lower

/-!
# Documented properties

A root file can set properties of the mission as well as declare functions. Each known property has
an entry with its type and meaning, found by its lower-case name. The type is a label for people; a
few labels select the text with which an editor starts a setting of the property.
-/

namespace MissionIndex.Documentation

open Text

/-- What is known of one property. -/
structure Entry where
  name : String
  type : String := ""
  description : String := ""
  link : String := ""
deriving DecidableEq, Repr

namespace Entry

def key (e : Entry) : String := lower e.name

/-- How a setting of the property starts. -/
def insertText (e : Entry) : String :=
  match lower e.type with
  | "string" => e.name ++ " = \""
  | "array" | "array of strings" => e.name ++ "[] = \x7b"
  | "class" => "class " ++ e.name ++ "\n\x7b\n"
  | _ => e.name ++ " = "

end Entry

/-- Entries by lower-case name. -/
abbrev Table := List (String × Entry)

namespace Table

/-- The table of some entries. Of two entries of one name the later one counts, in the place of the
earlier one. -/
def ofList (entries : List Entry) : Table := Ordered.ofEntries (entries.map fun e ↦ (e.key, e))

def find? (table : Table) (name : String) : Option Entry := table.lookup (lower name)

/-- The entries whose names start with `front`, in any spelling. -/
def search (table : Table) (front : String) : List Entry :=
  (table.filter fun (key, _) ↦ (lower front).toList.isPrefixOf key.toList).map Prod.snd

/-- All entries. -/
def toList (table : Table) : List Entry := table.map Prod.snd

end Table

end MissionIndex.Documentation
