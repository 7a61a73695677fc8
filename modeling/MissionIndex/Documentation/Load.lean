import MissionIndex.Data.Check
import MissionIndex.Data.Json
import MissionIndex.Disk
import MissionIndex.Documentation.Entry

/-!
# Loading documentation

Entries for properties can come from a JSON file: a mapping whose `properties` lists them. The first
entry at fault ends the loading.
-/

namespace MissionIndex.Documentation

open Data Text

/-- Why documentation cannot be loaded. -/
inductive LoadError where
  | unreadable (why : ReadError)
  | notUtf8
  | malformed
  /-- The file holds something other than a mapping. -/
  | notMapping
  /-- The properties are nothing that has entries. -/
  | notEntries
  | invalid (faults : List Fault)
deriving DecidableEq, Repr

/-- Reads a text field that may be left out. -/
def optionalText (entries : List (Data × Data)) (name : String) : Checked String :=
  match Data.entry? name entries with
  | some value => (checkText value).under (.name name)
  | none => .ok ""

/-- Reads the name of an entry, which must be there. -/
def requiredName (entries : List (Data × Data)) : Checked String :=
  match Data.entry? "name" entries with
  | some value => (checkText value).under (.name "name")
  | none => .error [⟨[.name "name"], .missing⟩]

def checkEntry : Data → Checked Entry
  | .map entries =>
    ((requiredName entries).both ((optionalText entries "type").both
      ((optionalText entries "description").both (optionalText entries "link")))).map
        fun (name, type, description, link) ↦ { name, type, description, link }
  | _ => fail .notRecord

/-- Reads entries up to the first one at fault. -/
def checkAll (items : List Data) : Checked Table := (items.mapM checkEntry).map Table.ofList

/-- The entries that a value has, if it is something that has any: the items of a list, the keys of
a mapping, or the characters of a text. -/
def entriesOf? : Data → Option (List Data)
  | .list items => some items
  | .map entries => some (entries.map Prod.fst)
  | .text s => some (s.toList.map fun c ↦ .text (String.singleton c))
  | _ => none

def load (disk : Disk) (path : String) : Except LoadError Table :=
  match disk.read path with
  | .error why => .error (.unreadable why)
  | .ok bytes =>
    match decodeStrict? bytes with
    | none => .error .notUtf8
    | some decoded =>
      match Json.read? (unifyNewlines decoded) with
      | none => .error .malformed
      | some (.map entries) =>
        match entriesOf? ((Data.entry? "properties" entries).getD (.list [])) with
        | none => .error .notEntries
        | some items =>
          match checkAll items with
          | .ok table => .ok table
          | .error faults => .error (.invalid faults)
      | some _ => .error .notMapping

end MissionIndex.Documentation
