import MissionIndex.Config.Tree
import MissionIndex.Diagnostic
import MissionIndex.Disk
import MissionIndex.Registry.Record
import MissionIndex.Settings.Basic
import MissionIndex.Uri

/-!
# Building the function table

The class `CfgFunctions` of a root file declares functions three levels deep: tags, the categories
of a tag, and the functions of a category. A tag names the prefix of its functions and a category
may override it; a category names the folder of its scripts and a function may name its script
itself. What a level does not say it takes from the one above, and the settings come last.

A function whose script is not there is reported at its declaration. Reports are kept by the URI of
the declaring file, which is why building fails when that file has none.
-/

namespace MissionIndex.Registry

open Config

/-- The class that declares functions. -/
def registryName : String := "CfgFunctions"

/-- What a category leaves to its functions. -/
structure Context where
  tag : String
  folder : String
deriving DecidableEq, Repr

/-- The prefix that a tag class names: its variable `tag`, or else its own name. -/
def tagOf (tagClass : ConfigClass) : String := (tagClass.text? "tag").getD tagClass.name

/-- What a category leaves to its functions, in a tag of the given prefix. -/
def contextOf (settings : Settings) (tag : String) (category : ConfigClass) : Context where
  tag := (category.text? "tag").getD tag
  folder := (category.text? "file").getD (Path.append settings.functionsFolder category.name)

def qualifiedName (context : Context) (function : ConfigClass) : String :=
  context.tag ++ "_fnc_" ++ function.name

/-- The path of a function's script as declared, which mappings have still to be applied to. -/
def declaredScript (settings : Settings) (context : Context) (function : ConfigClass) : String :=
  (function.text? "file").getD
    (Path.append context.folder
      ("fn_" ++ function.name ++ (function.text? "ext").getD settings.defaultExtension))

/-- The functions found so far, and reports by the URI of the file that they are about. -/
structure Build where
  functions : FunctionTable := []
  diagnostics : List (String × List Diagnostic) := []
deriving Repr, Inhabited

/-- A registry being read from a root file: what is the same for all its functions. -/
structure Scope where
  settings : Settings
  disk : Disk
  /-- The root file as it was named. -/
  root : String
  /-- The folder that relative script paths start from. -/
  folder : String

namespace Scope

def ofRoot (settings : Settings) (disk : Disk) (root : String) : Scope :=
  { settings, disk, root, folder := Path.parent (disk.absolute root) }

variable (scope : Scope)

def scriptOf (context : Context) (function : ConfigClass) : String :=
  Path.locate scope.settings.mappings scope.folder
    (declaredScript scope.settings context function)

def recordOf (context : Context) (function : ConfigClass) : FunctionRecord where
  name := qualifiedName context function
  script := scope.scriptOf context function
  root := scope.root
  declaration := some function.location

def missingScript (r : FunctionRecord) (function : ConfigClass) : Diagnostic :=
  .error function.location.range ("Failed to find " ++ r.script ++ " for function " ++
    r.name ++ ".")

/-- The file that a class with a place is declared in. A place that names no file is in the root
file. -/
def fileOf (location : Location) : String :=
  if location.file.isEmpty then scope.root else location.file

/-- Adds a function, and a report if its script is missing. -/
def addFunction (context : Context) (build : Build) (function : ConfigClass) :
    Except Uri.NoUri Build :=
  let r := scope.recordOf context function
  let functions := Ordered.put r.key r build.functions
  if scope.disk.isFile r.script then .ok { build with functions }
  else
    match Uri.ofPath scope.disk.workingDirectory (scope.fileOf function.location) with
    | .ok uri =>
      .ok { functions, diagnostics :=
              Ordered.push uri (missingScript r function) build.diagnostics }
    | .error e => .error e

def addCategory (tag : String) (build : Build) (category : ConfigClass) : Except Uri.NoUri Build :=
  category.body.classes.foldlM
    (fun build (_, function) ↦ scope.addFunction (contextOf scope.settings tag category)
      build function)
    build

/-- Adds the functions of all categories of a tag. -/
def addTag (build : Build) (tagClass : ConfigClass) : Except Uri.NoUri Build :=
  tagClass.body.classes.foldlM
    (fun build (_, category) ↦ scope.addCategory (tagOf tagClass) build category) build

end Scope

/-- The functions that the tree of a root file declares. -/
def build (settings : Settings) (disk : Disk) (root : String) (tree : ConfigClass) :
    Except Uri.NoUri Build :=
  match tree.child? registryName with
  | none => .ok {}
  | some registry =>
    registry.body.classes.foldlM
      (fun build (_, tagClass) ↦ (Scope.ofRoot settings disk root).addTag build tagClass) {}

def missing (disk : Disk) (functions : FunctionTable) : List FunctionRecord :=
  (functions.map Prod.snd).filter fun r ↦ !disk.isFile r.script

end MissionIndex.Registry
