import MissionIndex.Path.Basic
import MissionIndex.Text.Lower

/-!
# Roles of files

Three kinds of files matter: root files, the files that they include, and scripts. A file's role
follows from its name alone and does not depend on the case of letters.
-/

namespace MissionIndex.FileRole

def rootName : String := "description.ext"

/-- The endings of files that root files include, in lower case. -/
def includeExtensions : List String := [".hpp", ".h", ".inc"]

/-- The endings of scripts, in lower case. -/
def scriptExtensions : List String := [".sqf"]

def isRootName (name : String) : Bool := Text.lower name == rootName

def isIncludeExtension (ending : String) : Bool := includeExtensions.contains (Text.lower ending)

def isScriptExtension (ending : String) : Bool := scriptExtensions.contains (Text.lower ending)

end MissionIndex.FileRole
