import MissionIndex.Disk
import MissionIndex.FileRole
import MissionIndex.Uri

/-!
# Watching for changes

Which changes on disk matter to the index: those of root files and of files that root files include,
as far as no hidden folder below the watched one leads to them. Several folders may be watched at a
time, each by a watcher of its own.
-/

namespace MissionIndex.Workspace

/-- What happened to a file. -/
inductive Change where
  | modified
  | created
  | deleted
  | moved
deriving DecidableEq, Repr

/-- A change on disk. -/
structure FileEvent where
  change : Change
  path : String
  isFolder : Bool := false
deriving DecidableEq, Repr

/-- The ending of the last component of a path: its last dot and what follows, if there is something
on both sides of the dot. -/
def suffix (name : String) : String :=
  let back := name.toList.reverse
  let tail := back.takeWhile (· != '.')
  let before := (back.dropWhile (· != '.')).drop 1
  if tail = [] || before = [] then "" else String.ofList ('.' :: tail.reverse)

/-- The components of a path below those of a folder, if the path lies below it. -/
def below? (root path : String) : Option (List String) :=
  let inside := Path.segments path
  let around := Path.segments root
  if Path.rootSlashes root.toList = Path.rootSlashes path.toList && around.isPrefixOf inside then
    some (inside.drop around.length)
  else none

/-- Whether a file may matter to the index, going by its path alone. -/
def matters (root path : String) : Bool :=
  let hidden := match below? root path with
    | some rest => rest.any Path.isHiddenName
    | none => false
  let name := (Path.segments path).getLast?.getD ""
  !hidden && (FileRole.isRootName name || FileRole.isIncludeExtension (suffix name))

/-- Whether a change is passed on to the index. A file that is moved is not. -/
def isForwarded (root : String) (event : FileEvent) : Bool :=
  !event.isFolder && event.change != .moved && matters root event.path

/-- The URIs to index again after a change. -/
def toReindex (workingDirectory root : String) (event : FileEvent) :
    Except Uri.NoUri (List String) :=
  if isForwarded root event then (Uri.ofPath workingDirectory event.path).map fun uri ↦ [uri]
  else .ok []

/-- The changes of files that lead from one disk to another. -/
def changes (before after : Disk) : List FileEvent :=
  let path := fun (place : Place) ↦ "/" ++ "/".intercalate place
  let now := after.files.filterMap fun (place, content) ↦
    match before.contentAt? place with
    | none => some { change := .created, path := path place }
    | some old => if old = content then none else some { change := .modified, path := path place }
  let gone := before.files.filterMap fun (place, _) ↦
    if (after.contentAt? place).isSome then none
    else some { change := .deleted, path := path place }
  now ++ gone

/-! ## Watchers -/

/-- A watch on a folder, which may be on or off. -/
structure Watcher where
  /-- The folder as an absolute path. -/
  root : String
  isRunning : Bool := false
deriving DecidableEq, Repr

def watched (watchers : List Watcher) : List String :=
  (watchers.filter Watcher.isRunning).map Watcher.root

/-- Turns the newest watcher on or off. -/
def setRunning (isRunning : Bool) (watchers : List Watcher) : List Watcher :=
  match watchers.getLast? with
  | some newest => watchers.dropLast ++ [{ newest with isRunning }]
  | none => []

end MissionIndex.Workspace
