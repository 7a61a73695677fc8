import MissionIndex.Data.Yaml.Reading
import MissionIndex.Disk
import MissionIndex.Settings.Validation

/-!
# Loading settings

A workspace can bring its settings in a YAML file. Where there is no such file, or none that holds a
mapping, nothing is set; a mapping with values at fault is not passed over in silence. A reader of
YAML may end in other ways than by finding a text malformed, and then the loading fails.

## Paths that are not looked up

A system may bar a path: below a folder that may not be searched, for a name that is too long, or
when a device fails. Then asking whether a file is there has no answer, and the loading fails as
well. Which paths are barred is not told by the disk, so it is given beside it (`bars`).
-/

namespace MissionIndex.Settings

open Data

/-- Why settings cannot be taken from a file. -/
inductive LoadError where
  /-- The path is barred. -/
  | notLookedUp
  | notUtf8
  /-- The reader gave up. -/
  | aborted
  | invalid (faults : List Data.Fault)
deriving DecidableEq, Repr

def fileName : String := ".ext-index.yaml"

variable (yaml : Yaml.Reader)

def ofYaml (s : Text.Stream) : Except LoadError Settings :=
  match yaml.read s with
  | .ok (.map entries) => (ofData (.map entries)).mapError .invalid
  | .ok _ | .error .malformed => .ok {}
  | .error .undecodable => .error .notUtf8
  | .error .aborted => .error .aborted

def load (bars : String → Bool) (disk : Disk) (path : String) : Except LoadError Settings :=
  if bars path then .error .notLookedUp
  else match disk.stream path with
    | .error _ => .ok {}
    | .ok s => ofYaml yaml s

/-- Where the settings of a workspace are: in its own file or in the one named instead. -/
def pathIn (root : String) (instead : Option String) : String :=
  Path.tidy (instead.getD (Path.append root fileName))

def ofWorkspace (bars : String → Bool) (disk : Disk) (root : String) (instead : Option String) :
    Except LoadError Settings :=
  load yaml bars disk (pathIn root instead)

end MissionIndex.Settings
