import MissionIndex.Session.Reindexing
import MissionIndex.Workspace.Watching

/-!
# Changes on disk

A change on disk reaches a session through its watchers. Each passes on what matters to it; however
many pass a change on, the file is indexed again once.
-/

namespace MissionIndex.Session

variable (s : Session)

/-- A watcher for a folder, which is off at first. -/
def watcherFor (root : String) : Workspace.Watcher := { root := Workspace.absoluteRoot s.disk root }

def passedOn (watchers : List Workspace.Watcher) (event : Workspace.FileEvent) :
    Except Uri.NoUri (List String) :=
  ((Workspace.watched watchers).mapM fun root ↦
    Workspace.toReindex s.disk.workingDirectory root event).map fun uris ↦
      Workspace.withoutRepetition uris.flatten

/-- Indexes again after a change on disk, of which there is nothing to be told if its path has no
URI. -/
def notice (watchers : List Workspace.Watcher) (event : Workspace.FileEvent) :
    Except Uri.NoUri Session :=
  (s.passedOn watchers event).map fun uris ↦ uris.foldl reindex s

end MissionIndex.Session
