import MissionIndex.Diagnostic
import MissionIndex.Disk
import MissionIndex.Documents
import MissionIndex.Registry.Record
import MissionIndex.Settings.Basic

/-!
# Sessions

What an index of a workspace knows between two things that happen to it: the root files it has, the
functions found in them, the documents open in the editor, and everything published so far. Of the
diagnostics published for a file, only those of the last time count.
-/

namespace MissionIndex

/-- The functions of a root file, and the pass that found them. -/
structure Indexed where
  pass : Nat
  table : FunctionTable
deriving DecidableEq, Repr

/-- The state of an index. -/
structure Session where
  disk : Disk
  settings : Settings := {}
  documents : Documents := []
  /-- The root files. -/
  files : List String := []
  /-- By root file, what the last pass that could read it has found. -/
  functions : List (String × Indexed) := []
  /-- The number of passes that have found anything. -/
  passes : Nat := 0
  /-- The diagnostics published for a file by its URI, again and again. -/
  published : List (String × List Diagnostic) := []

namespace Session

variable (s : Session)

def tables : FunctionTables := s.functions.map fun (root, indexed) ↦ (root, indexed.table)

def publish (uri : String) (diagnostics : List Diagnostic) : Session :=
  { s with published := s.published ++ [(uri, diagnostics)] }

def shown (uri : String) : List Diagnostic := (s.published.reverse.lookup uri).getD []

def uriOf (path : String) : Except Uri.NoUri String := Uri.ofPath s.disk.workingDirectory path

/-- Publishes the diagnostics of the file at a path, if the path has a URI. -/
def publishAt (path : String) (diagnostics : List Diagnostic) : Session :=
  match s.uriOf path with
  | .ok uri => s.publish uri diagnostics
  | .error _ => s

@[simp] theorem shown_publish (uri : String) (diagnostics : List Diagnostic) :
    (s.publish uri diagnostics).shown uri = diagnostics := by
  simp [shown, publish]

end Session

end MissionIndex
