import MissionIndex.FileRole
import MissionIndex.Session.Pass
import MissionIndex.Workspace.Discovery

/-!
# Indexing again

When files change, root files are read again: a root file when it has changed itself, and all of
them when a file has that any of them may include. A root file that is neither on disk nor open is
forgotten. Where one root file fails, the others are read all the same.
-/

namespace MissionIndex.Session

variable (s : Session)

def passOver (files : List String) : Session :=
  (Workspace.present s.disk files).foldl (fun s file ↦ (s.pass file).1) s

/-- Indexes a workspace: finds its root files and passes over them. -/
def index (root : String) : Session :=
  let files := Workspace.discover s.disk s.settings root
  { s.passOver files with files }

/-- Forgets a root file, its functions and its diagnostics. -/
def forget (path : String) : Session :=
  { s with functions := Ordered.erase path s.functions, files := s.files.erase path }.publishAt path
  []

/-- Adds a root file to the others. -/
def addFile (path : String) : Session :=
  if s.files.contains path then s else { s with files := s.files ++ [path] }

/-- Indexes a root file again. If it is not there to be read and may not be asked for either,
nothing happens. -/
def reindexRoot (path : String) : Session :=
  if s.disk.hasPath path then ((s.addFile path).pass path).1
  else
    match s.documents.textFor s.disk.workingDirectory path with
    | .ok (some _) => ((s.addFile path).pass path).1
    | .ok none => s.forget path
    | .error _ => s

/-- What a change of a file calls for, by the name of the file. -/
inductive Reaction where
  | reindexRoot
  | reindexAll
  | nothing
deriving DecidableEq, Repr

/-- What a change of the file at a path calls for. -/
def reactionTo (path : String) : Reaction :=
  let name := Text.lower (Path.fileName path)
  if name = FileRole.rootName then .reindexRoot
  else if FileRole.includeExtensions.contains (Path.extension name) then .reindexAll
  else .nothing

/-- Indexes again after a change of the document with a URI. -/
def reindex (uri : String) : Session :=
  let path := s.disk.absolute (Uri.toPath uri)
  match reactionTo path with
  | .reindexRoot => s.reindexRoot path
  | .reindexAll => s.passOver s.files
  | .nothing => s

end MissionIndex.Session
