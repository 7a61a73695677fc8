import MissionIndex.Path.Mapping

/-!
# Settings

What a user can set about the indexing of a workspace, and what holds where nothing is set.
-/

namespace MissionIndex

/-- The settings of a workspace. -/
structure Settings where
  /-- Root files to index in any case. -/
  descriptionFiles : List String := []
  /-- Whether to look for root files in the whole workspace. -/
  discover : Bool := true
  /-- Globs for root files that are not to be indexed. -/
  exclude : List String := []
  /-- Fronts of paths and the folders that stand for them. -/
  mappings : List Path.Mapping := []
  /-- The folder of scripts, where a category does not name its own. -/
  functionsFolder : String := "functions"
  /-- The ending of script names, where a function does not name its own. -/
  defaultExtension : String := ".sqf"
  /-- How long to wait for further changes before a file is read again. -/
  debounceSeconds : Float := 0.2

instance : Inhabited Settings := ⟨{}⟩

end MissionIndex
