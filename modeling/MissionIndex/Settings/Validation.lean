import MissionIndex.Data.Check
import MissionIndex.Settings.Basic
import MissionIndex.Text.Blank

/-!
# Validating settings

Settings arrive as plain data. Every field has one type, and a value is taken where it can be read
as that type without loss: a truth value may be written as a number or a word, and a number as text.
Faults are reported in the order of the fields and within a field in the order of its entries.
-/

namespace MissionIndex.Settings

open Data Text

/-! ## Reading values -/

def checkItems (n : Nat) : List Data → Checked (List String)
  | [] => .ok []
  | item :: rest =>
    (((checkText item).under (.index n)).both (checkItems (n + 1) rest)).map fun (s, more) ↦
      s :: more

def checkTexts : Data → Checked (List String)
  | .list items => checkItems 0 items
  | _ => fail .notList

/-- The step that a key of a mapping is, whatever its type. -/
def keyStep : Data → Step
  | .text s => .name s
  | .int n => .index n
  | .bool b => .index (if b then 1 else 0)
  | .float x => .name (Data.floatText x)
  | .null => .name "None"
  | _ => .name ""

/-- Reads the entries of a mapping between texts. A key at fault is marked as such. -/
def checkEntries : List (Data × Data) → Checked (List (String × String))
  | [] => .ok []
  | (key, value) :: rest =>
    let front := ((checkText key).under (.name "[key]")).under (keyStep key)
    let folder := (checkText value).under (keyStep key)
    ((front.both folder).both (checkEntries rest)).map fun (entry, more) ↦ entry :: more

def checkMappings : Data → Checked (List Path.Mapping)
  | .map entries => (checkEntries entries).map (·.map fun (front, folder) ↦ ⟨front, folder⟩)
  | _ => fail .notMapping

/-- The words for a truth value, in lower case. -/
def boolWords : List (String × Bool) :=
  [("0", false), ("off", false), ("f", false), ("false", false), ("n", false), ("no", false),
    ("1", true), ("on", true), ("t", true), ("true", true), ("y", true), ("yes", true)]

/-- Reads a truth value. -/
def checkBool : Data → Checked Bool
  | .bool b => .ok b
  | .int n => if n = 0 then .ok false else if n = 1 then .ok true else fail .unreadableBool
  | .float x =>
    if x == 0 then .ok false else if x == 1 then .ok true
    else if x.floor == x && !x.isInf then fail .unreadableBool else fail .notBool
  | .text s =>
    match boolWords.lookup (String.ofList (s.toList.map Char.toLower)) with
    | some b => .ok b
    | none => fail .unreadableBool
  | _ => fail .notBool

/-- A text without the underscores between its digits, if every underscore stands alone inside the
text. -/
def dropUnderscores? (cs : List Char) : Option (List Char) :=
  let parts := splitAt '_' cs
  if parts.length = 1 || parts.any (· == []) then none else some parts.flatten

/-- The characters that may stand around a number: the blanks other than the separators among the
control characters. -/
def mayStandAround (c : Char) : Bool := isBlank c && !(28 ≤ c.toNat && c.toNat ≤ 31)

/-- Reads a number from text, with blanks around it and single underscores inside. -/
def numberOfText? (s : String) : Option Float :=
  let read := fun (cs : List Char) ↦ Data.readFloat? (stripBy mayStandAround cs)
  (read s.toList).or ((dropUnderscores? s.toList).bind read)

def checkNumber : Data → Checked Float
  | .bool b => .ok (if b then 1 else 0)
  | .int n => .ok (if n < 0 then -Data.nearestFloat n.natAbs 0 else Data.nearestFloat n.natAbs 0)
  | .float x => .ok x
  | .text s =>
    match numberOfText? s with
    | some x => .ok x
    | none => fail .unreadableNumber
  | _ => fail .notNumber

/-- Reads a number that is not below zero. -/
def checkDelay (value : Data) : Checked Float :=
  match checkNumber value with
  | .ok x => if x < 0 then fail .negative else .ok x
  | .error fs => .error fs

/-! ## Reading settings -/

/-- Reads the field that goes by one of two names, or takes what holds without it. -/
def field {α : Type} (entries : List (Data × Data)) (editorName fileName : String) (unset : α)
    (check : Data → Checked α) : Checked α :=
  match Data.entry? editorName entries with
  | some value => (check value).under (.name editorName)
  | none =>
    match Data.entry? fileName entries with
    | some value => (check value).under (.name fileName)
    | none => .ok unset

/-- Reads settings from the entries of a mapping. Entries of other names are passed over. -/
def ofEntries (entries : List (Data × Data)) : Checked Settings :=
  let unset : Settings := {}
  let descriptionFiles :=
    field entries "descriptionFiles" "description_files" unset.descriptionFiles checkTexts
  let discover := field entries "discoverDescriptionFiles" "discover_description_files"
    unset.discover checkBool
  let exclude := field entries "exclude" "exclude" unset.exclude checkTexts
  let mappings := field entries "includePrefixes" "include_prefixes" unset.mappings checkMappings
  let functionsFolder := field entries "functionsDirectory" "functions_directory"
    unset.functionsFolder checkText
  let defaultExtension := field entries "defaultExtension" "default_extension"
    unset.defaultExtension checkText
  let debounce := field entries "debounceSeconds" "debounce_seconds"
    unset.debounceSeconds checkDelay
  (descriptionFiles.both (discover.both (exclude.both (mappings.both (functionsFolder.both
    (defaultExtension.both debounce)))))).map fun (files, find, out, maps, folder, ext, delay) ↦
      { descriptionFiles := files, discover := find, exclude := out, mappings := maps
        functionsFolder := folder, defaultExtension := ext, debounceSeconds := delay }

/-- The section of an editor's settings that is about this program. -/
def editorSection : String := "sqflint"

/-- Reads settings as an editor sends them: at the top level or in a section of their own, which
then counts alone. Without any value the settings are those that hold where nothing is set. -/
def ofData : Data → Checked Settings
  | .map entries =>
    match Data.entry? editorSection entries with
    | some (.map inner) => ofEntries inner
    | _ => ofEntries entries
  | _ => .ok {}

end MissionIndex.Settings
