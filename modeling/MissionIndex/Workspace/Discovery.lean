import MissionIndex.Disk
import MissionIndex.FileRole
import MissionIndex.Path.Absolute
import MissionIndex.Path.Exclusion
import MissionIndex.Settings.Basic

/-!
# Finding root files

The root files of a workspace are those that the settings list and, if the settings say so, every
`description.ext` below the workspace folder. Hidden folders and excluded files are passed over.
Files found come in the order of a walk through the tree: a folder before the folders in it, and
those sorted by name, which is the lexicographic order of their places.
-/

namespace MissionIndex.Workspace

/-- Whether one place comes before another, or is the same, on a walk through the tree. -/
def walksBefore : Place → Place → Bool
  | [], _ => true
  | _ :: _, [] => false
  | a :: as, b :: bs => if a = b then walksBefore as bs else decide (a < b)

/-- The folder of a file, seen from `root`, if the file is a root file in a folder below `root` that
no hidden folder leads to. -/
def folderBelow? (root file : Place) : Option Place :=
  if file.getLast? == some FileRole.rootName && root.isPrefixOf file && root != file then
    let folder := file.dropLast.drop root.length
    if folder.any Path.isHiddenName then none else some folder
  else none

/-- The folders below `root` that hold a root file, in the order of a walk. -/
def foldersWithRoot (disk : Disk) (root : Place) : List Place :=
  (disk.files.filterMap fun (file, _) ↦ folderBelow? root file).mergeSort walksBefore

def relativePath (folder : Place) : String := "/".intercalate (folder ++ [FileRole.rootName])

/-- The root files below the workspace folder that no glob excludes. There are none where the path
of the folder leads nowhere. -/
def scan (disk : Disk) (settings : Settings) (root : String) : List String :=
  match disk.lookup root with
  | .error _ => []
  | .ok spot =>
    (((foldersWithRoot disk spot).map relativePath).filter fun path ↦
      !Path.isExcluded path settings.exclude).map fun path ↦ Path.append root path

/-- The workspace folder as an absolute path that keeps its `..` components. -/
def absoluteRoot (disk : Disk) (root : String) : String :=
  Path.tidy (Path.append disk.workingDirectory (Path.tidy root))

def listed (settings : Settings) (root : String) : List String :=
  settings.descriptionFiles.map fun item ↦
    if Path.isAbsolute item then item else Path.resolve root item

def withoutRepetition (items : List String) : List String :=
  items.foldl (fun seen item ↦ if seen.contains item then seen else seen ++ [item]) []

/-- The root file that a workspace folder holds itself. -/
def ownRoot (root : String) : String := Path.append root FileRole.rootName

/-- The root files of a workspace. Where the settings do not ask for a search, the workspace
folder's own root file counts if it is there. -/
def discover (disk : Disk) (settings : Settings) (root : String) : List String :=
  let root := absoluteRoot disk root
  let found :=
    if settings.discover then scan disk settings root
    else
      let own := ownRoot root
      if disk.hasPath own then [own] else []
  withoutRepetition (listed settings root ++ found)

/-- The root files among `files` that are there to be indexed. -/
def present (disk : Disk) (files : List String) : List String := files.filter disk.hasPath

end MissionIndex.Workspace
