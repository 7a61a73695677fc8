import MissionIndex.CommandLine.Arguments
import MissionIndex.CommandLine.Remarks
import MissionIndex.Path.Relative
import MissionIndex.Session.Watching
import MissionIndex.Settings.Load

/-!
# Commands

What the program does when it is called: it indexes a workspace once and reports on it, lists the
functions found, or goes on watching the workspace. A command takes the disk as it is and gives what
there is to be shown, so that only the reading of the disk and the showing are left to be done.

The status at the end is 0 when all is well, 1 when errors were found, and 2 when the command could
not be carried out.
-/

namespace MissionIndex.CommandLine

/-- A table. Its cells are texts with markup. -/
structure Table where
  title : String
  columns : List String
  rows : List (List String)
deriving DecidableEq, Repr

/-- Something to be shown. -/
inductive Shown where
  /-- a line of text with markup -/
  | line (text : String)
  | table (table : Table)
deriving DecidableEq, Repr

/-- What a command shows, and its status. -/
structure Report where
  shown : List Shown
  status : Nat
deriving DecidableEq, Repr

/-! ## Checking -/

/-- What is said at the end of a check. -/
def summary (tables : FunctionTables) (errors : Nat) : String :=
  let functions := tables.foldl (fun n (_, table) ↦ n + table.length) 0
  toString tables.length ++ " description file(s), " ++ toString functions ++ " function(s), " ++
    toString errors ++ " error(s)"

/-- The report on an index: all diagnostics that are left, sorted by URI, and their number. -/
def checkReport (s : Session) : Report :=
  let remarks := Remarks.ofPublished s.published
  let sorted := remarks.mergeSort fun a b ↦ decide (a.1 ≤ b.1)
  let errors := remarks.errorCount
  { shown := (markupLines sorted ++ [summary s.tables errors]).map .line
    status := if errors = 0 then 0 else 1 }

/-! ## Listing functions -/

def functionRow (disk : Disk) (folder : String) (r : FunctionRecord) : List String :=
  [r.name, Path.relative (disk.absolute folder) (disk.absolute r.script),
    if disk.isFile r.script then "[green]yes[/green]" else "[red]no[/red]",
    if r.info.isSome then "yes" else ""]

/-- The functions of an index, those of each root file sorted by name. -/
def functionTable (s : Session) (folder : String) : Table where
  title := "Functions"
  columns := ["Function", "File", "Found", "Documented"]
  rows := s.tables.flatMap fun (_, table) ↦
    ((table.map Prod.snd).mergeSort fun a b ↦ decide (a.key ≤ b.key)).map
      (functionRow s.disk folder)

/-! ## Watching -/

/-- A watch on a workspace that is under way. -/
structure Watch where
  session : Session
  watchers : List Workspace.Watcher

namespace Watch

/-- Starts to watch a workspace that has been indexed. The folder is shown as it is, markup and
all. -/
def start (s : Session) (folder : String) : Watch × List Shown :=
  let root := Workspace.absoluteRoot s.disk folder
  ({ session := s, watchers := [{ root, isRunning := true }] },
    (markupLines s.published ++ ["Watching " ++ root ++ " (Ctrl+C to stop)"]).map .line)

/-- Takes note of a change on a disk, which is now as given. A change at a path without a URI is
passed over. -/
def notice (w : Watch) (disk : Disk) (event : Workspace.FileEvent) : Watch × List Shown :=
  let s := { w.session with disk, published := [] }
  match s.notice w.watchers event with
  | .ok s => ({ w with session := s }, (markupLines s.published).map .line)
  | .error _ => ({ w with session := s }, [])

/-- What is shown when the watch ends. -/
def farewell : List Shown := [.line "Stopped"]

end Watch

/-! ## The program -/

/-- What calling the program comes to. -/
inductive Outcome where
  /-- The arguments were refused. -/
  | refused (why : Refusal)
  /-- No command was named. -/
  | idle
  | report (r : Report)
  | watching (watch : Watch) (shown : List Shown)
  | invalidSettings (faults : List Data.Fault)
  /-- A path is barred. -/
  | notLookedUp
  /-- The settings file is no text. -/
  | settingsNotUtf8
  /-- The reader of the settings file gave up. -/
  | settingsAborted

/-- The report that the workspace named is none. -/
def noFolder (path : String) : Report :=
  { shown := [.line ("[red]Not a directory:[/red] " ++ Markup.escape path)], status := 2 }

/-- Carries out a command under the given settings. -/
def perform (disk : Disk) (settings : Settings) (a : Arguments) : Outcome :=
  let s := ({ disk, settings } : Session).index a.workspace
  match a.command with
  | .check => .report (checkReport s)
  | .functions =>
    let folder := Workspace.absoluteRoot disk a.workspace
    .report { shown := [.table (functionTable s folder)], status := 0 }
  | .watch =>
    let (watch, shown) := Watch.start s a.workspace
    .watching watch shown

def Outcome.ofLoadError : Settings.LoadError → Outcome
  | .invalid faults => .invalidSettings faults
  | .notLookedUp => .notLookedUp
  | .notUtf8 => .settingsNotUtf8
  | .aborted => .settingsAborted

/-- Whether discovering root files looks a path up that is barred. A search passes over such
paths. -/
def discoveryBarred (bars : String → Bool) (disk : Disk) (settings : Settings) (folder : String) :
    Bool :=
  !settings.discover && bars (Workspace.ownRoot (Workspace.absoluteRoot disk folder))

/-- Calls the program, which reads its settings with the given reader of YAML, on a system that bars
the given paths. -/
def run (yaml : Data.Yaml.Reader) (bars : String → Bool) (disk : Disk) (args : List String) :
    Outcome :=
  match readArguments args with
  | .error why => .refused why
  | .ok none => .idle
  | .ok (some a) =>
    if bars a.workspace then .notLookedUp
    else if !disk.isFolder a.workspace then .report (noFolder a.workspace)
    else
      match Settings.ofWorkspace yaml bars disk a.workspace a.config with
      | .ok settings =>
        if discoveryBarred bars disk settings a.workspace then .notLookedUp
        else perform disk settings a
      | .error why => .ofLoadError why

def Refusal.status : Refusal → Nat
  | .help => 0
  | .misuse => 2

/-- The status where a command could not be carried out. -/
def failureStatus : Nat := 2

/-- The status that the program ends with, which for a watch it has when it is stopped. There is
none where a path that is barred or a failure to load settings ends it. -/
def Outcome.status? : Outcome → Option Nat
  | .refused why => some why.status
  | .idle => some failureStatus
  | .report r => some r.status
  | .watching _ _ => some 0
  | .invalidSettings _ => some failureStatus
  | .notLookedUp | .settingsNotUtf8 | .settingsAborted => none

end MissionIndex.CommandLine
