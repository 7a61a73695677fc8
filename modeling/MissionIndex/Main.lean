import MissionIndex.CommandLine.Commands

/-!
# The program

Reads the part of the disk that a call is about, carries the call out on it, and shows the outcome.
That part is the workspace with the settings file named, and the folders that its settings lead to.
Links to folders and hidden folders are left out.
-/

namespace MissionIndex

open CommandLine

/-! ## Reading the disk -/

/-- What an action gives, or nothing if it fails. -/
def attempt {α : Type} (action : IO α) : IO (Option α) := do
  try
    return some (← action)
  catch _ =>
    return none

/-- Adds what stands at an absolute path to a disk. -/
partial def addTree (disk : Disk) (path : String) : IO Disk := do
  match ← attempt (IO.FS.realPath path) with
  | none => return disk
  | some real =>
    if ← real.isDir then
      let mut disk := { disk with folders := disk.folders ++ [disk.place path] }
      for entry in ← real.readDir do
        let target ← attempt (IO.FS.realPath entry.path)
        let isLink := target.map toString != some (toString entry.path)
        let isFolder ← entry.path.isDir
        if !(isFolder && (isLink || Path.isHiddenName entry.fileName)) then
          disk ← addTree disk (Path.append path entry.fileName)
      return disk
    else
      match ← attempt (IO.FS.readBinFile path) with
      | some bytes => return disk.write path (.bytes bytes.toList)
      | none => return disk.write path .unreadable

/-- The paths outside the workspace that settings lead to. -/
def pathsOf (settings : Settings) : List String :=
  settings.mappings.map Path.Mapping.folder ++ settings.functionsFolder ::
    settings.descriptionFiles.map Path.parent

/-- Whether looking a path up fails otherwise than because nothing is there. -/
def isBarred (path : String) : IO Bool := do
  try
    discard <| IO.FS.realPath path
    return false
  catch
    | .noFileOrDirectory .. | .inappropriateType .. => return false
    | _ => return true

/-- The disk before anything has been read of it. -/
def emptyDisk : IO Disk := do
  return { workingDirectory := toString (← IO.FS.realPath ".") }

def barredPaths (a : Arguments) : IO (List String) := do
  let own := Workspace.ownRoot (Workspace.absoluteRoot (← emptyDisk) a.workspace)
  [a.workspace, Settings.pathIn a.workspace a.config, own].filterM isBarred

def readDisk (bars : String → Bool) (a : Arguments) : IO Disk := do
  let named := a.workspace :: a.config.toList
  let disk ← named.foldlM (fun disk path ↦ addTree disk (disk.absolute path)) (← emptyDisk)
  match Settings.ofWorkspace Data.Yaml.reader bars disk a.workspace a.config with
  | .ok settings =>
    (pathsOf settings).foldlM (fun disk path ↦
      if Path.isRooted path then addTree disk (disk.absolute path) else pure disk) disk
  | .error _ => return disk

/-! ## Showing -/

/-- The rows of a table as lines, with every column as wide as its widest cell. -/
def tableLines (t : Table) : List String :=
  let rows := t.columns :: t.rows.map fun row ↦ row.map fun cell ↦ (Markup.render? cell).getD cell
  let widths := (List.range t.columns.length).map fun n ↦
    (rows.map fun row ↦ (row.getD n "").length).foldl max 0
  t.title :: rows.map fun row ↦
    "  ".intercalate ((row.zip widths).map fun (cell, width) ↦
      cell ++ String.ofList (List.replicate (width - cell.length) ' '))

/-- Shows what a command has to show. -/
def display (shown : List Shown) : IO Unit := do
  for item in shown do
    match item with
    | .line text =>
      match Markup.render? text with
      | some line => IO.println line
      | none => throw (IO.userError "A tag is closed that is not open.")
    | .table t => (tableLines t).forM IO.println
  (← IO.getStdout).flush

/-! ## Calling -/

/-- How the program is called. -/
def usage : String :=
  "usage: mission-index [-h] (check | functions | watch) workspace [--config FILE] [-v]"

/-- The pause between two looks at the disk, in milliseconds. -/
def pause : UInt32 := 500

/-- Goes on watching for as long as the program runs. -/
partial def goOn (a : Arguments) (watch : Watch) : IO Unit := do
  IO.sleep pause
  let disk ← readDisk (fun _ ↦ false) a
  let mut watch := watch
  for event in Workspace.changes watch.session.disk disk do
    let (next, shown) := watch.notice disk event
    display shown
    watch := next
  goOn a { watch with session := { watch.session with disk } }

/-- Carries out a call and gives its status. -/
def call (args : List String) : IO UInt32 := do
  let carriedOut := (readArguments args).toOption.join
  let barred ← (carriedOut.map barredPaths).getD (pure [])
  let disk ← (carriedOut.map (readDisk barred.contains)).getD (pure {})
  let outcome := run Data.Yaml.reader barred.contains disk args
  match outcome with
  | .refused _ | .idle => IO.println usage
  | .report r => display r.shown
  | .watching watch shown =>
    display shown
    carriedOut.forM (goOn · watch)
  | .invalidSettings faults =>
    IO.println ("Invalid settings: " ++ toString faults.length ++ " value(s) at fault")
  | .notLookedUp => throw (IO.userError "A path cannot be looked up.")
  | .settingsNotUtf8 => throw (IO.userError "The settings file is not UTF-8.")
  | .settingsAborted => throw (IO.userError "The settings file cannot be read.")
  return (outcome.status?.getD failureStatus).toUInt32

end MissionIndex

/-- Calls the program with the arguments of the command line. -/
def main (args : List String) : IO UInt32 := MissionIndex.call args
