import MissionIndex.Path.Absolute

/-!
# Mapped paths

A mapping replaces the front of a path by a local folder. Mappings are tried in their declared
order and the first that fits decides, even when a later one is longer. The rest of the path is
appended without a separator, so a mapping ends where the folder name should end.
-/

namespace MissionIndex.Path

/-- A front of paths and the folder that stands for it. -/
structure Mapping where
  front : String
  folder : String
deriving DecidableEq, Repr

/-- Applies the first mapping whose front `path` has. An absolute folder takes the rest of the path
as it is; a relative one is looked up from `base` and the result normalised. -/
def applyMappings (mappings : List Mapping) (base path : String) : Option String :=
  (mappings.find? fun m ↦ m.front.toList.isPrefixOf path.toList).map fun m ↦
    let whole := m.folder ++ String.ofList (path.toList.drop m.front.length)
    if isAbsolute m.folder then whole else resolve base whole

/-- The file that a declared path stands for: by the mappings if one fits, else from `base`. -/
def locate (mappings : List Mapping) (base path : String) : String :=
  (applyMappings mappings base path).getD (resolve base path)

end MissionIndex.Path
